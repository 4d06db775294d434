/-
# What the files of modules hold

A module that was written stays as it was written, while more modules are made.  For another module is
written at another place: its path is another one, and paths that go down from the top lead to the same place
only if they are the same.  Temporary files and package markers have other names.

* `Naming.IsPlaced`, `Naming.isPlaced_of_placedIn` : the paths of modules;
* `Emission.kind?_of_emit_eq_ok` : what a module holds when it was written;
* `Tracked`, `Preserves` : the modules of a log hold what they held, and new ones hold their text;
* `Observed.retains_testcase` : this is so after a run, however it ends.
-/
import TestScribe.Proofs.Climbing
import TestScribe.Proofs.Listing
import TestScribe.Proofs.Outlines
import TestScribe.Proofs.Records

namespace TestScribe

/-! ## Writing a module -/

/-- A module holds its text when it was written, if the package marker has another place. -/
theorem Emission.kind?_of_emit_eq_ok {marker text : String} {directory output : Path} {d d' : Disk}
    (hmarker : ∀ name, (directory.child marker).EndsIn name →
      d.location (directory.child marker) ≠ d.location output)
    (h : emit marker text directory output d = .ok () d') :
    d'.kind? (d.location output) = some (.file text.toUTF8) := by
  obtain ⟨_, d₁, hpave, h⟩ := exists_of_bind_eq_ok h
  obtain ⟨_, d₂, hwrite, h⟩ := exists_of_bind_eq_ok h
  obtain ⟨_, d₃, hrename, hpackage⟩ := exists_of_bind_eq_ok h
  have hpaved : Disk.Changes (fun _ => True) (fun _ => True) d d₁ :=
    (Disk.changes_createDirectories directory d).ok hpave
  have hdraft := Disk.becomes_of_write_eq_ok hwrite
  have hplaced := Disk.becomes_of_rename_eq_ok (Disk.read?_of_write_eq_ok hwrite) hrename
  have hworking₂ : d₂.workingDirectory = d.workingDirectory :=
    hdraft.workingDirectory.trans hpaved.workingDirectory
  have hmodule : d₃.kind? (d.location output) = some (.file text.toUTF8) := by
    rw [hplaced.kind?, Disk.location_of_workingDirectory_eq hworking₂, if_pos rfl]
  -- the package marker does not matter
  rw [ensurePackage_eq] at hpackage
  split at hpackage
  · cases hpackage
    exact hmodule
  · obtain ⟨-, ⟨name, hend⟩, -⟩ := Disk.of_write_eq_ok hpackage
    rw [(Disk.becomes_of_write_eq_ok hpackage).kind?, if_neg, hmodule]
    rw [Disk.location_of_workingDirectory_eq (hplaced.workingDirectory.trans hworking₂)]
    exact (hmarker name hend).symm

/-! ## Paths of modules -/

/-- A path in normal form that begins with a name at the top goes down. -/
theorem Path.exists_goesDown_of_normal {p : Path} (hp : p.normalize = p) {first : String}
    {rest : List Component} (h : p.components = .root :: .name first :: rest) :
    ∃ names, p.GoesDown names := by
  obtain ⟨-, ups, names, hups, hnames, hpieces⟩ := exists_names_of_normal hp
  have hanchor := anchor_of_components h
  rw [components, hanchor, hpieces, List.filterMap_append, filterMap_names hnames] at h
  rcases hups with rfl | rfl
  · refine ⟨names, ?_⟩
    rw [GoesDown, components, hanchor, hpieces, List.nil_append, filterMap_names hnames]
    rfl
  · cases h

namespace Naming

/-- The path of a module goes down from the top, and ends in a name with the suffix. -/
structure IsPlaced (suffix : String) (output : Path) : Prop where
  down : ∃ names, output.GoesDown names
  plain : output.IsPlain
  endsIn : ∃ stem, output.EndsIn (stem ++ suffix)

/-- A project root below the top, which paths go down to. -/
structure IsBelowTop (root : Path) : Prop where
  plain : root.IsPlain
  down : ∃ first names, root.GoesDown (first :: names)

/-- An output directory, if one is given, goes down from the top. -/
def LeadsDown (outputDirectory : Option Path) : Prop :=
  ∀ directory ∈ outputDirectory, directory.IsPlain ∧ ∃ names, directory.GoesDown names

section Placed

variable {root source below tidied : Path} (hroot : IsBelowTop root) (hnormal : source.normalize = source)
  (hbelow : relative root source = .ok below)

include hroot hnormal hbelow

/-- A source below the root goes down from it. -/
theorem exists_names_of_relative :
    ∃ rest : List String, source.components = root.components ++ rest.map Component.name := by
  obtain ⟨first, names, hdown⟩ := hroot.down
  have hcomponents := Path.components_of_after? (relative_eq_ok_iff.1 hbelow)
  have hfirst : source.components = .root :: .name first ::
      (names.map Component.name ++ below.components) := by
    rw [hcomponents, hdown]
    rfl
  obtain ⟨all, hall⟩ := Path.exists_goesDown_of_normal hnormal hfirst
  have hsplit : all.map Component.name = (first :: names).map Component.name ++ below.components := by
    rw [hall, hdown] at hcomponents
    exact (List.cons.inj hcomponents).2
  obtain ⟨-, rest, -, -, hrest⟩ := List.map_eq_append_iff.1 hsplit
  exact ⟨rest, by rw [hcomponents, hrest]⟩

/-- A tidied source goes down from the top, and is not the top. -/
theorem exists_goesDown_of_tidy (hplain : source.IsPlain) (h : tidy root root source = .ok tidied) :
    ∃ front last, tidied.GoesDown (front ++ [last]) := by
  obtain ⟨first, names, hdown⟩ := hroot.down
  have hlast : ∀ rest : List String, tidied.components = root.components ++ rest.map Component.name →
      ∃ front last, tidied.GoesDown (front ++ [last]) := by
    intro rest hrest
    obtain ⟨front, last, hall⟩ := (List.eq_nil_or_concat' (first :: names ++ rest)).resolve_left nofun
    refine ⟨front, last, ?_⟩
    rw [Path.GoesDown, hrest, hdown, ← hall, List.map_append]
    rfl
  obtain ⟨rest, hrest⟩ := exists_names_of_relative hroot hnormal hbelow
  by_cases hne : rest = []
  · -- the source is the root, and stays as it is
    subst hne
    obtain ⟨stem, hstem, h⟩ := bind_eq_ok.1 h
    rw [relative_eq_ok_iff] at hstem
    have hlength := source.length_withoutExtension_le
    rw [Path.components_of_after? hstem, hrest, List.length_append, List.length_append] at hlength
    have hempty : stem.components = [] := List.length_eq_zero_iff.1 (by simpa using hlength)
    rw [if_pos (Path.eq_empty_of_after? hstem hempty)] at h
    cases h
    exact hlast [] hrest
  · obtain ⟨names', hnames', -⟩ := exists_names_of_tidy hplain hnormal hne hrest h
    exact hlast names' hnames'

/-- Where the module of a source below the root goes is the path of a module, if the output directory goes
down from the top. -/
theorem isPlaced_of_placedIn {settings : Settings} (hsettings : settings.WritesNoDocument)
    (hplain : source.IsPlain) {outputDirectory : Option Path} (hdirectory : LeadsDown outputDirectory)
    {output : Path} {className : String} (hgenerated : IsGenerated settings.generatedSuffix output)
    (h : placedIn root settings.generatedSuffix source outputDirectory = .ok (output, className)) :
    IsPlaced settings.generatedSuffix output := by
  obtain ⟨stem, hend⟩ := hgenerated.endsIn hsettings.suffix.1 hsettings.suffix.exists_ne_dot
  cases outputDirectory with
  | some directory =>
    obtain ⟨hdirectoryPlain, names, hdown⟩ := hdirectory directory rfl
    obtain ⟨file, hfile⟩ := components_of_placedIn hroot.plain hplain h hend
    refine ⟨⟨names ++ [file], ?_⟩, ?_, stem, hend⟩
    · rw [Path.GoesDown, hfile, hdown, List.map_append]
      rfl
    · obtain ⟨⟨beside, _⟩, hbeside, hout⟩ := map_eq_ok.1 h
      dsimp only at hout
      split at hout
      · next hsome _ =>
        cases hsome
        cases hout
        exact Path.isPlain_child hdirectoryPlain _
      · cases hout
        exact isPlain_placed hroot.plain hplain hbeside
  | none =>
    rw [placedIn_none] at h
    obtain ⟨tidied, htidied, hout⟩ := map_eq_ok.1 h
    obtain ⟨front, last, hdown⟩ := exists_goesDown_of_tidy hroot hnormal hbelow hplain htidied
    cases hout
    have hslash : '/' ∉ (tidied.stem?.getD "" ++ settings.generatedSuffix).toList := by
      rw [String.toList_append, List.mem_append]
      exact fun h => h.elim (notMem_stem (isPlain_tidy hroot.plain hplain htidied)) hsettings.suffix.1
    have hname := hend.of_child hslash
    obtain ⟨hne, hdot⟩ := Path.isFiller_eq_false_iff.1 hend.2.1
    refine ⟨⟨front ++ [stem ++ settings.generatedSuffix], ?_⟩, isPlain_placed hroot.plain hplain h, stem, hend⟩
    have htop : Component.root :: (front ++ [last]).map Component.name
        = (.root :: front.map Component.name) ++ [.name last] := by simp
    rw [Path.GoesDown, ← hname, Path.components_child (hname ▸ hslash) hne hdot,
      Path.componentOf?_of_name hend.2.1 hend.2.2, Path.components_parent, hdown, htop,
      List.dropLast_concat]
    simp

end Placed

end Naming

/-! ## Places of modules -/

section Apart

variable {settings : Settings} {p q : Path} {d : Disk}

theorem Naming.IsPlaced.location_ne (hp : IsPlaced settings.generatedSuffix p)
    (hq : IsPlaced settings.generatedSuffix q) (h : ¬ p.same q) : d.location p ≠ d.location q := by
  obtain ⟨names, hpdown⟩ := hp.down
  obtain ⟨names', hqdown⟩ := hq.down
  exact fun heq => h (Disk.same_of_location_eq hpdown hqdown heq)

/-- The place of a module ends in a name with the suffix, and so in no temporary name and in no package
marker. -/
theorem Naming.IsPlaced.not_named (hnames : settings.NamesApart)
    (hp : IsPlaced settings.generatedSuffix p) :
    ¬ Disk.Named (fun name => IsTemporaryName name ∨ name = settings.packageMarker) (d.location p) := by
  obtain ⟨stem, hend⟩ := hp.endsIn
  obtain ⟨above, -, hlocation⟩ := Disk.location_of_endsIn (d := d) hend
  rintro ⟨name, hname, hother⟩
  rw [hlocation, List.getLast?_concat] at hname
  cases hname
  rcases hother with htemporary | hmarker
  · exact hnames.module stem htemporary
  · exact hnames.apart stem hmarker.symm

/-- Writing a module leaves the other modules alone, and the disk in order. -/
structure Emission.WritesOnly (suffix : String) (output : Path) (d d' : Disk) : Prop where
  touches : Disk.Touches (fun _ => True) IsTemporaryName d d'
  ordered : d'.IsOrdered
  others : ∀ p, Naming.IsPlaced suffix p → ¬ p.same output → ∀ content,
    d'.kind? (d'.location p) = some (.file content) ↔ d.kind? (d.location p) = some (.file content)

/-- A module is written to its place, and holds its text there. -/
theorem Emission.writesOnly_emit (hnames : settings.NamesApart) (hd : d.IsOrdered) {output : Path}
    (houtput : Naming.IsPlaced settings.generatedSuffix output) (text : String) :
    Ensures (emit settings.packageMarker text output.parent output) d
      (fun _ d' => WritesOnly settings.generatedSuffix output d d' ∧
        d'.kind? (d'.location output) = some (.file text.toUTF8))
      (WritesOnly settings.generatedSuffix output d) := by
  set other : List String → Prop :=
    Disk.Named fun name => IsTemporaryName name ∨ name = settings.packageMarker
  obtain ⟨temporaryName, htemporaryEnd, htemporaryName⟩ := endsIn_temporary output
  have htemporary : other (d.location (temporary output)) :=
    Disk.named_location htemporaryEnd (.inl htemporaryName)
  have hmarker : ∀ name, (output.parent.child settings.packageMarker).EndsIn name →
      other (d.location (output.parent.child settings.packageMarker)) :=
    fun name hend => Disk.named_location hend (.inr (hend.of_child hnames.documents.marker.1))
  have hchanges : Ensures (emit settings.packageMarker text output.parent output) d
      (fun _ => Disk.Changes (fun place => place = d.location output ∨ other place) (fun _ => True) d)
      (Disk.Changes (fun place => place = d.location output ∨ other place) (fun _ => True) d) :=
    changes_emit (.inr htemporary) trivial (fun _ _ => .inl rfl)
      (fun name hend => .inr (hmarker name hend)) text
  have htouches : Ensures (emit settings.packageMarker text output.parent output) d
      (fun _ => Disk.Touches (fun _ => True) IsTemporaryName d)
      (Disk.Touches (fun _ => True) IsTemporaryName d) :=
    touches_emit (fun _ _ => trivial) (fun _ _ => trivial) (fun _ _ => trivial) text d
  have hordered := ordered_emit hd (Path.isPlain_parent houtput.plain) houtput.plain
    settings.packageMarker text
  have hwritten : ∀ d', Disk.Touches (fun _ => True) IsTemporaryName d d' → d'.IsOrdered →
      Disk.Changes (fun place => place = d.location output ∨ other place) (fun _ => True) d d' →
      WritesOnly settings.generatedSuffix output d d' := by
    intro d' htouches hordered hchanges
    refine ⟨htouches, hordered, fun p hp hsame content => ?_⟩
    rw [Disk.location_of_workingDirectory_eq hchanges.workingDirectory]
    exact hchanges.same _ _ fun h => h.elim (hp.location_ne houtput hsame) (hp.not_named hnames)
  refine ⟨fun hstep => ?_, fun hstep => ?_⟩
  · have hmodule := hwritten _ (htouches.ok hstep) (hordered.ok hstep) (hchanges.ok hstep)
    refine ⟨hmodule, ?_⟩
    rw [Disk.location_of_workingDirectory_eq hmodule.touches.workingDirectory]
    refine kind?_of_emit_eq_ok (fun name hend heq => ?_) hstep
    exact houtput.not_named hnames (heq ▸ hmarker name hend)
  · exact hwritten _ (htouches.error hstep) (hordered.error hstep) (hchanges.error hstep)

end Apart

/-! ## What a log retains -/

/-- A session of a project with a fixed root that has made the modules of the log, each at the path of a
module, on a disk that is in order. -/
structure Tracked (root : Path) (settings : Settings) (c : Chronicle) : Prop where
  placed : ∀ r ∈ c.log, Naming.IsPlaced settings.generatedSuffix r.output
  mirrors : c.session.made = c.log.map Record.entry
  ordered : c.session.disk.IsOrdered
  locator : c.session.locator = .fixed root
  settings : c.session.settings = settings

/-- The file of a record holds the given content. -/
def Disk.Holds (d : Disk) (r : Record) (content : ByteArray) : Prop :=
  d.kind? (d.location r.output) = some (.file content)

/-- From one state to another, the files of the modules in the log hold what they held, modules were added
that hold their texts, and no other file was removed but temporary ones. -/
structure Preserves (c c' : Chronicle) : Prop where
  disk : Disk.Touches (fun _ => True) IsTemporaryName c.session.disk c'.session.disk
  held : ∀ r ∈ c.log, ∀ content, c'.session.disk.Holds r content ↔ c.session.disk.Holds r content
  added : ∃ new, c'.log = c.log ++ new ∧ ∀ r ∈ new,
    c'.session.disk.Holds r r.script.render.toUTF8 ∧ ∀ q ∈ c.log, ¬ q.output.same r.output

namespace Preserves

variable {c c' c'' : Chronicle}

theorem of_disk_eq {t : Session} (h : t.disk = c.session.disk) : Preserves c ⟨t, c.log⟩ where
  disk := by
    show Disk.Touches _ _ _ t.disk
    rw [h]
    exact .refl _
  held r _ content := by
    show t.disk.Holds r content ↔ _
    rw [h]
  added := ⟨[], (List.append_nil _).symm, by simp⟩

theorem log (h : Preserves c c') : c.log <+: c'.log := by
  obtain ⟨new, hnew, -⟩ := h.added
  exact ⟨new, hnew.symm⟩

/-- A module is an old one, or holds its text. -/
theorem mem_or_holds (h : Preserves c c') {r : Record} (hr : r ∈ c'.log) :
    r ∈ c.log ∨ c'.session.disk.Holds r r.script.render.toUTF8 := by
  obtain ⟨new, hnew, hadded⟩ := h.added
  rw [hnew, List.mem_append] at hr
  exact hr.imp_right fun hr => (hadded r hr).1

theorem trans (h : Preserves c c') (h' : Preserves c' c'') : Preserves c c'' := by
  obtain ⟨new, hnew, hadded⟩ := h.added
  obtain ⟨new', hnew', hadded'⟩ := h'.added
  refine ⟨h.disk.trans h'.disk,
    fun r hr content => (h'.held r (h.log.subset hr) content).trans (h.held r hr content),
    new ++ new', by rw [hnew', hnew, List.append_assoc], fun r hr => ?_⟩
  rcases List.mem_append.1 hr with hr | hr
  · have hmem : r ∈ c'.log := by
      rw [hnew]
      exact List.mem_append_right _ hr
    exact ⟨(h'.held r hmem _).2 (hadded r hr).1, (hadded r hr).2⟩
  · exact ⟨(hadded' r hr).1, fun q hq => (hadded' r hr).2 q (h.log.subset hq)⟩

end Preserves

section Tracked

variable {root : Path} {settings : Settings} {c : Chronicle} {r : Record} {d : Disk}

/-- Where a session has no module, its log has none. -/
theorem Tracked.not_same (h : Tracked root settings c) {output : Path}
    (hnone : c.session.made? output = none) : ∀ q ∈ c.log, ¬ q.output.same output := by
  intro q hq
  rw [Session.made?_eq_none_iff, h.mirrors] at hnone
  exact hnone q.entry (List.mem_map_of_mem hq)

/-- A module is written at a path where there is none, and the others hold what they held. -/
theorem Tracked.write (h : Tracked root settings c) (hnone : c.session.made? r.output = none)
    (hd : Emission.WritesOnly settings.generatedSuffix r.output c.session.disk d) :
    Tracked root settings { c with session := { c.session with disk := d } } ∧
      Preserves c { c with session := { c.session with disk := d } } := by
  refine ⟨⟨h.placed, h.mirrors, hd.ordered, h.locator, h.settings⟩, hd.touches, ?_, [], (List.append_nil _).symm,
    by simp⟩
  exact fun q hq content => hd.others q.output (h.placed q hq) (h.not_same hnone q hq) content

/-- A module that was written is added. -/
theorem Tracked.add (h : Tracked root settings c) (hplaced : Naming.IsPlaced settings.generatedSuffix r.output)
    (hnone : c.session.made? r.output = none) (hholds : c.session.disk.Holds r r.script.render.toUTF8) :
    Tracked root settings ⟨c.session.keep r.output r.entry.2, c.log ++ [r]⟩ ∧
      Preserves c ⟨c.session.keep r.output r.entry.2, c.log ++ [r]⟩ := by
  refine ⟨⟨?placed, ?mirrors, h.ordered, h.locator, h.settings⟩, .refl _, fun _ _ _ => Iff.rfl, [r], rfl, ?added⟩
  case placed =>
    intro q hq
    rcases List.mem_append.1 hq with hq | hq
    · exact h.placed q hq
    · rw [List.mem_singleton.1 hq]
      exact hplaced
  case mirrors =>
    rw [Session.made_keep hnone, h.mirrors, List.map_append]
    rfl
  case added =>
    intro q hq
    rw [List.mem_singleton.1 hq]
    exact ⟨hholds, h.not_same hnone⟩

/-- Every step of a run preserves the modules, if new ones are written where there are none. -/
theorem stepwise_tracked (hroot : Naming.IsBelowTop root) (hnames : settings.NamesApart) :
    Stepwise (WritesNew []) (fun _ p outputDirectory => p.IsPlain ∧ p.normalize = p ∧
        Naming.LeadsDown outputDirectory) (Tracked root settings) Preserves (fun _ _ => True)
      fun _ _ _ _ => True := by
  have hwritten : ∀ {c : Chronicle} {r : Record} {outputDirectory : Option Path}, Tracked root settings c →
      r.source.IsPlain ∧ r.source.normalize = r.source ∧ Naming.LeadsDown outputDirectory →
      Composed (fun _ _ => True) (fun _ _ _ => True) c r outputDirectory →
      Naming.IsPlaced settings.generatedSuffix r.output ∧ Ensures (Emission.emit c.session.settings.packageMarker
        r.script.render r.output.parent r.output) c.session.disk
        (fun _ d => Emission.WritesOnly settings.generatedSuffix r.output c.session.disk d ∧
          d.Holds r r.script.render.toUTF8)
        (Emission.WritesOnly settings.generatedSuffix r.output c.session.disk) := by
    rintro c r outputDirectory hc ⟨hplain, hnormal, hdirectory⟩ hr
    obtain ⟨_, below, -, -, -, hbelow⟩ := hr.resolved
    have hgenerated := hr.generated
    have hplaced := hr.fixed root hc.locator
    rw [hc.settings] at hgenerated hplaced ⊢
    have houtput := Naming.isPlaced_of_placedIn hroot hnormal (hbelow root hc.locator) hnames.documents hplain
      hdirectory hgenerated hplaced
    exact ⟨houtput, Emission.writesOnly_emit hnames hc.ordered houtput r.script.render⟩
  refine {
    refl := fun _ => .of_disk_eq rfl
    trans := .trans
    source := fun _ h => h
    opened := ?_
    found := fun _ _ => trivial
    finds := fun _ _ _ _ => trivial
    findsLater := fun _ _ => trivial
    still := ?_
    failed := ?_
    built := ?_ }
  · intro c p content hc hnormal _ hfixed
    obtain ⟨raw, rfl⟩ := hfixed root hc.locator
    exact ⟨isPlain_referenced hroot.plain raw, hnormal, by simp [Naming.LeadsDown]⟩
  · exact fun hc ht => ⟨⟨hc.placed, ht.made.trans hc.mirrors, ht.disk ▸ hc.ordered, ht.locator.trans hc.locator,
      ht.settings.trans hc.settings⟩, .of_disk_eq ht.disk⟩
  · intro c r outputDirectory e d _ hc hsource hr hnew hrun
    exact hc.write (hnew.fresh _ rfl) ((hwritten hc hsource hr).2.error hrun)
  · intro c r outputDirectory d _ hc hsource hr hnew hrun
    obtain ⟨hplaced, hemit⟩ := hwritten hc hsource hr
    obtain ⟨honly, hholds⟩ := hemit.ok hrun
    obtain ⟨htracked, hpreserves⟩ := hc.write (hnew.fresh _ rfl) honly
    obtain ⟨hadded, hkept⟩ := htracked.add hplaced (hnew.fresh _ rfl) hholds
    exact ⟨hadded, hpreserves.trans hkept⟩

/-- **Modules are retained.**  When the module of a document is made, or fails to be made, every module of
the log holds what it held, and every module that was added holds its text; if it was made, the session has it
at a path that ends as it should. -/
theorem Observed.retains_testcase (hroot : Naming.IsBelowTop root) (hnames : settings.NamesApart)
    (h : Tracked root settings c) (raw : Value) {source : Path} (hplain : source.IsPlain)
    {outputDirectory : Option Path} (hdirectory : Naming.LeadsDown outputDirectory) :
    Ensures (testcase raw source outputDirectory).recorded c
      (fun output c' => Onward (Tracked root settings) Preserves c c' ∧
        Arrives source.normalize outputDirectory c output c')
      (Onward (Tracked root settings) Preserves c) := by
  have hsince : Since root settings.generatedSuffix [] c.session :=
    ⟨h.locator, congrArg Settings.generatedSuffix h.settings, List.nil_prefix⟩
  refine (stepwise_tracked hroot hnames).tracks_testcase h raw outputDirectory
    ⟨Path.isPlain_normalize hplain, Path.normalize_normalize source, hdirectory⟩ ?_
  exact (adds_testcase hroot.plain hnames.documents.suffix.1 hsince raw hplain outputDirectory).moments
    fun _ _ => trivial

end Tracked

end TestScribe
