/-
# Emptying the output directory

A batch with an output directory removes what is there before it makes anything, unless one of its inputs
lies there.  The removal may stop on the way, and what it removed by then is gone.  Nothing else is removed,
and no document is written, so a document is kept if and only if the removal does not come to it.  An input
can be a folder in which the output directory lies: its documents are then not all kept.

* `Disk.Emptied` : some places were removed, and all files outside of them stayed;
* `Batch.wiped` : the places that a batch removes, `Batch.ensures_prepare` : it does so;
* `Disk.SameDocuments`, `Batch.carries_keepsDocuments` : the rest of a batch keeps the documents;
* `documents_kept_iff` : which documents are kept.
-/
import TestScribe.Proofs.Batches
import TestScribe.Proofs.Nesting
import TestScribe.Proofs.Once

namespace TestScribe

/-! ## Removing a directory -/

namespace Disk

variable {d d' d'' : Disk} {p : Path} {wiped wiped' : List (List String)}
  {E : Disk → Prop}

/-- From one disk to another, the files at some places and below them were removed.  All others stayed as
they were, and none came into being. -/
structure Emptied (wiped : List (List String)) (d d' : Disk) : Prop where
  workingDirectory : d'.workingDirectory = d.workingDirectory
  file : ∀ place content, d'.kind? place = some (.file content) ↔
    d.kind? place = some (.file content) ∧ ∀ gone ∈ wiped, ¬ gone <+: place

theorem Emptied.refl (d : Disk) : Emptied [] d d := ⟨rfl, by simp⟩

theorem Emptied.passed (d : Disk) : Emptied [] d d.passed := ⟨rfl, by simp [kind?, Disk.passed]⟩

/-- What two removals remove. -/
theorem Emptied.append (h : Emptied wiped d d') (h' : Emptied wiped' d' d'') :
    Emptied (wiped ++ wiped') d d'' where
  workingDirectory := h'.workingDirectory.trans h.workingDirectory
  file place content := by
    rw [h'.file, h.file, List.forall_mem_append, and_assoc]

/-- Directories that are made do not matter. -/
theorem Emptied.createDirectories (h : Emptied wiped d d') (p : Path) :
    Ensures (Disk.createDirectories p) d' (fun _ => Emptied wiped d) (Emptied wiped d) := by
  have hemptied : ∀ d'', Changes (fun _ => False) (fun _ => False) d' d'' → Emptied wiped d d'' := by
    intro d'' hchanges
    refine ⟨hchanges.workingDirectory.trans h.workingDirectory, fun place content => ?_⟩
    rw [hchanges.same place content not_false, h.file]
  exact (changes_createDirectories p d').mono (fun _ => hemptied) hemptied

theorem locate?_of_isDirectory (h : d.isDirectory p = true) : d.locate? p = some (d.location p) := by
  unfold isDirectory entry? at h
  cases hlocate : d.locate? p with
  | none => simp [hlocate] at h
  | some place => rw [location_of_locate? hlocate]

/-- What is cleared is gone with all that it held, and nothing else is. -/
theorem emptied_clear (names : List String) (d : Disk) :
    Ensures (clear names) d (fun _ => Emptied [names] d) E := by
  refine .of_eq_ok (a := ()) rfl ⟨rfl, fun place content => ?_⟩
  dsimp only
  by_cases htop : names = []
  · -- nothing is left, and everything lay below the top
    subst htop
    cases place with
    | nil => simp [kind?, Entry.kindAt?_nil]
    | cons name more => simp [kind?, Entry.kindAt?_cons, Entry.find?]
  · have hkind := kind?_of_removeTree (d := d) htop place
    rw [kind?] at hkind ⊢
    rw [if_neg htop, hkind]
    by_cases hbelow : names <+: place
    · simp [hbelow]
    · simp [hbelow]

theorem emptied_clearAll (names : List String) (gone : List (List String)) (d : Disk) :
    Ensures (gone.forM fun below => clear (names ++ below)) d
      (fun _ => Emptied (gone.map (names ++ ·)) d) E := by
  induction gone generalizing d with
  | nil => exact .pure (.refl d)
  | cons below rest ih =>
    refine .bind (emptied_clear (names ++ below) d) fun _ d' hd' => ?_
    exact (ih d').mono (fun _ _ h => hd'.append h) fun _ h => h

/-- The places that are gone when the device has dealt with the removal of a directory: the directory, or
some places in it if the removal stops on the way. -/
def removals (fate : Option Failure) (place : List String) : List (List String) :=
  match fate with
  | none => [place]
  | some (.stopped gone) => gone.map (place ++ ·)
  | some _ => []

/-- What a removal takes away lies in the directory. -/
theorem prefix_of_mem_removals {fate : Option Failure} {place gone : List String}
    (h : gone ∈ removals fate place) : place <+: gone := by
  unfold removals at h
  split at h
  · rw [List.mem_singleton.1 h]
  · obtain ⟨below, -, rfl⟩ := List.mem_map.1 h
    exact List.prefix_append place below
  · cases h

/-- Removing a directory removes the files in it that the device comes to, and no others. -/
theorem emptied_removeTree (h : d.isDirectory p = true) :
    Ensures (removeTree p) d (fun _ => Emptied (removals d.fate (d.location p)) d)
      (Emptied (removals d.fate (d.location p)) d) := by
  unfold removeTree
  refine .of_eq (bind_get _ d) ?_
  rw [locate?_of_isDirectory h]
  refine .of_eq (bind_of_ok (nextFate_eq d)) ?_
  have hpassed := Emptied.passed d
  cases d.fate with
  | none =>
    refine .bind (emptied_clear (d.location p) d.passed) fun _ d' hd' => ?_
    have hremoved := hpassed.append hd'
    split
    · exact .throw hremoved
    · exact .pure hremoved
  | some failure =>
    cases failure with
    | stopped gone =>
      refine .bind (emptied_clearAll (d.location p) gone d.passed) fun _ d' hd' => ?_
      exact .throw (hpassed.append hd')
    | refused => exact .throw hpassed
    | cutShort bytes => exact .throw hpassed

end Disk

/-! ## Preparing a batch -/

namespace Batch

/-- The places that are gone when an output directory was prepared: those that its removal takes away, if
the directory is there and holds no input. -/
def removed (inputs : List Path) (directory : Path) (d : Disk) : List (List String) :=
  if (∀ p ∈ inputs, directory.isBelow p = false) ∧ d.isDirectory directory = true then
    Disk.removals d.fate (d.location directory)
  else []

/-- The places that a batch removes, with all that is below them. -/
def wiped (inputs : List Path) (outputDirectory : Option Path) (d : Disk) : List (List String) :=
  match outputDirectory with
  | none => []
  | some directory =>
    if inputs = [] then [] else removed (inputs.map (absolute d)) (absolute d directory) d

/-- A batch without inputs removes nothing. -/
theorem wiped_nil (outputDirectory : Option Path) (d : Disk) : wiped [] outputDirectory d = [] := by
  cases outputDirectory with
  | none => rfl
  | some directory => rw [wiped, if_pos rfl]

/-- The session differs in its disk at most, where some places were emptied. -/
def Prepared (wiped : List (List String)) (s t : Session) : Prop :=
  ∃ d, t = { s with disk := d } ∧ s.disk.Emptied wiped d

/-- Preparing an output directory empties it, and nothing else, however it ends. -/
theorem ensures_prepare (inputs : List Path) (directory : Path) (s : Session) :
    Ensures (prepare inputs directory) s (fun _ => Prepared (removed inputs directory s.disk) s)
      (Prepared (removed inputs directory s.disk) s) := by
  unfold prepare
  cases hfind : inputs.find? (directory.isBelow ·) with
  | some input =>
    have hheld : ¬ ∀ p ∈ inputs, directory.isBelow p = false := by
      intro hnone
      have hbelow := List.find?_some hfind
      rw [hnone input (List.mem_of_find?_eq_some hfind)] at hbelow
      cases hbelow
    rw [removed, if_neg fun h => hheld h.1]
    exact .throw ⟨s.disk, rfl, .refl _⟩
  | none =>
    have hfree : ∀ p ∈ inputs, directory.isBelow p = false := by simpa using hfind
    have hmake : ∀ t, Prepared (removed inputs directory s.disk) s t →
        Ensures (Make.onDisk (Disk.createDirectories directory)) t
          (fun _ => Prepared (removed inputs directory s.disk) s)
          (Prepared (removed inputs directory s.disk) s) := by
      rintro _ ⟨d, rfl, hd⟩
      exact Make.ensures_onDisk (s := { s with disk := d }) (hd.createDirectories directory)
    refine .bind .get ?_
    intro u t hget
    obtain ⟨rfl, rfl⟩ : s = t ∧ s = u := ⟨hget.1.symm, hget.2.symm⟩
    split
    · next hdirectory =>
      rw [removed, if_pos ⟨hfree, hdirectory⟩] at hmake ⊢
      exact .bind (Make.ensures_onDisk (Disk.emptied_removeTree hdirectory)) fun _ => hmake
    · next hdirectory =>
      rw [removed, if_neg fun h => hdirectory h.2] at hmake ⊢
      exact hmake s ⟨s.disk, rfl, .refl _⟩

/-- What a batch does before it makes anything. -/
theorem ensures_prepareAll {inputs : List Path} (hinputs : inputs ≠ []) (outputDirectory : Option Path)
    (s : Session) :
    Ensures ((outputDirectory.map (absolute s.disk)).forM (prepare (inputs.map (absolute s.disk)))) s
      (fun _ => Prepared (wiped inputs outputDirectory s.disk) s)
      (Prepared (wiped inputs outputDirectory s.disk) s) := by
  cases outputDirectory with
  | none => exact .pure ⟨s.disk, rfl, .refl _⟩
  | some directory =>
    rw [wiped, if_neg hinputs]
    exact ensures_prepare (inputs.map (absolute s.disk)) (absolute s.disk directory) s

end Batch

/-! ## Documents -/

/-- The documents of the one disk are those of the other, with the same content. -/
def Disk.SameDocuments (d d' : Disk) : Prop :=
  ∀ place content, Named Source.IsDocumentName place →
    (d'.kind? place = some (.file content) ↔ d.kind? place = some (.file content))

theorem Disk.Touches.sameDocuments {touched removed : String → Prop} {d d' : Disk}
    (h : Touches touched removed d d') (htouched : ∀ name, Source.IsDocumentName name → ¬ touched name) :
    d.SameDocuments d' := by
  rintro place content ⟨name, hname, hdocument⟩
  refine h.same place content ?_
  rintro ⟨other, hother, htouch⟩
  rw [hname] at hother
  cases hother
  exact htouched name hdocument htouch

/-- From an empty stack, with settings that let no document be written: the documents are kept, and the
stack is empty again. -/
def Session.KeepsDocuments (s t : Session) : Prop :=
  s.resolving = [] → s.settings.WritesNoDocument →
    t.resolving = [] ∧ t.settings = s.settings ∧ s.disk.SameDocuments t.disk

/-- A formatter keeps the documents, whatever the files are that it is run on. -/
def Formatter.KeepsDocuments (f : Formatter) : Prop :=
  ∀ (files : List Path) (s : Session), Ensures (Make.format f files) s
    (fun _ t => s.disk.SameDocuments t.disk) fun t => s.disk.SameDocuments t.disk

namespace Batch

theorem carries_keepsDocuments (outputDirectory : Option Path) :
    Carries outputDirectory Path.IsPlain Session.KeepsDocuments where
  plain := id
  refl s hstack _ := ⟨hstack, rfl, fun _ _ _ => Iff.rfl⟩
  trans {s t u} h h' hstack hsettings := by
    obtain ⟨hstack', hsame, hdocuments⟩ := h hstack hsettings
    obtain ⟨hstack'', hsame', hdocuments'⟩ := h' hstack' (hsame ▸ hsettings)
    refine ⟨hstack'', hsame'.trans hsame, fun place content hname => ?_⟩
    rw [hdocuments' place content hname, hdocuments place content hname]
  make s content p _ := by
    have hkeeps : ∀ t, Stays (fun name => ¬ Source.IsDocumentName name) s t → s.resolving = [] →
        t.resolving = [] ∧ t.settings = s.settings ∧ s.disk.SameDocuments t.disk :=
      fun t ht hstack => ⟨ht.resolving.trans hstack, ht.settings,
        ht.disk.sameDocuments fun _ hname hnot => hnot hname⟩
    have hstays := fun hstack (hsettings : s.settings.WritesNoDocument) =>
      Make.stays_testcase hstack hsettings.covers content p outputDirectory
    cases hresult : Make.testcase content p outputDirectory s with
    | ok q t =>
      rw [hresult] at hstays
      obtain ⟨runSet, hrunSet⟩ := t.exists_addToRun q
      intro hstack hsettings
      rw [hrunSet]
      exact hkeeps t (hstays hstack hsettings) hstack
    | error e t =>
      rw [hresult] at hstays
      exact fun hstack hsettings => hkeeps t (hstays hstack hsettings) hstack
  listed {s t p found q} _ _ _ hst _ hstack hsettings := by
    obtain ⟨runSet, hrunSet⟩ := t.exists_addToRun q
    rw [hrunSet]
    exact hst hstack hsettings

/-- A batch empties its output directory, and then keeps the documents that are left, however it ends. -/
theorem emptied_of_run {s : Session} (hworking : s.disk.currentPath.IsPlain) (hstack : s.resolving = [])
    (hsettings : s.settings.WritesNoDocument) {inputs : List Path} (hplain : ∀ p ∈ inputs, p.IsPlain)
    (outputDirectory : Option Path) {formatter : Option Formatter}
    (hformatter : ∀ f ∈ formatter, f.KeepsDocuments) :
    ∃ d, s.disk.Emptied (wiped inputs outputDirectory s.disk) d ∧
      d.SameDocuments (stateAfter (run inputs outputDirectory formatter) s).disk := by
  by_cases hinputs : inputs = []
  · subst hinputs
    rw [wiped_nil]
    exact ⟨s.disk, .refl _, fun _ _ _ => Iff.rfl⟩
  set absolutes := inputs.map (absolute s.disk) with habsolutes
  have hplain' : ∀ p ∈ absolutes, p.IsPlain := by
    intro p hp
    obtain ⟨q, hq, rfl⟩ := List.mem_map.1 hp
    exact isPlain_absolute hworking (hplain q hq)
  -- what is true of every state from the preparations on
  let Q (t : Session) : Prop := ∃ d, s.disk.Emptied (wiped inputs outputDirectory s.disk) d ∧
    d.SameDocuments t.disk
  suffices hrun : Ensures (run inputs outputDirectory formatter) s (fun _ => Q) Q from hrun.stateAfter
  have hgather : ∀ t, Prepared (wiped inputs outputDirectory s.disk) s t →
      ∀ u, t.KeepsDocuments u → Q u := by
    rintro _ ⟨d, rfl, hd⟩ u hu
    exact ⟨d, hd, (hu hstack hsettings).2.2⟩
  refine ensures_run hinputs (P := Prepared (wiped inputs outputDirectory s.disk) s) (G := fun _ => Q)
    ?_ ?_ ?_
  · exact (ensures_prepareAll hinputs outputDirectory s).mono (fun _ _ h => h)
      fun t ht => hgather t ht t ((carries_keepsDocuments none).refl t)
  · intro t ht
    exact ((carries_keepsDocuments _).gathered hplain' t).mono (fun _ => hgather t ht) (hgather t ht)
  · rintro skipped u ⟨d, hd, hu⟩
    have hformat : ∀ v, u.disk.SameDocuments v.disk → Q v := by
      intro v hv
      refine ⟨d, hd, fun place content hname => ?_⟩
      rw [hv place content hname, hu place content hname]
    cases formatter with
    | none => exact .pure (hformat u fun _ _ _ => Iff.rfl)
    | some f => exact (hformatter f rfl _ u).mono (fun _ => hformat) hformat

/-- What a batch removes lies in its output directory, and no input does. -/
theorem of_mem_wiped {inputs : List Path} {directory : Path} {d : Disk} {gone : List String}
    (h : gone ∈ wiped inputs (some directory) d) :
    (∀ p ∈ inputs.map (absolute d), (absolute d directory).isBelow p = false) ∧
      d.location (absolute d directory) <+: gone := by
  rw [wiped, removed] at h
  split_ifs at h with hinputs hguard
  · cases h
  · exact ⟨hguard.1, Disk.prefix_of_mem_removals h⟩
  · cases h

/-- An output directory that holds no input, where both are given from the top, lies outside of a place or
below the inputs above the place. -/
theorem prefix_of_isBelow_eq_false {directory input : Path} {above below place : List String}
    (hdirectory : directory.GoesDown below) (hinput : input.GoesDown above)
    (hfree : directory.isBelow input = false) (habove : above <+: place) (hbelow : below <+: place) :
    above <+: below := by
  refine (List.prefix_or_prefix_of_prefix habove hbelow).resolve_right fun h => ?_
  have hheld : directory.components <+: input.components := by
    rw [hdirectory, hinput]
    exact (List.prefix_cons_inj _).2 (h.map Component.name)
  rw [Path.isBelow, List.isPrefixOf_iff_prefix.2 hheld] at hfree
  cases hfree

end Batch

/-- **Which documents a batch keeps.**  From a session at rest whose settings let no document be written, a
batch keeps a document, whether it succeeds or fails, if and only if the document does not lie at or below a
place that the batch removes: the output directory or, where its removal stops on the way, what was removed
of it by then.  A document of an input is lost only if the output directory lies below the input, where
both are given by paths that go down from the top. -/
theorem documents_kept_iff (s : Session) (hworking : s.disk.currentPath.IsPlain)
    (hstack : s.resolving = []) (hsettings : s.settings.WritesNoDocument) (inputs : List String)
    (outputDirectory : Option String) (formatter : Option Formatter)
    (hformatter : ∀ f ∈ formatter, f.KeepsDocuments) (place : List String)
    (hname : Disk.Named Source.IsDocumentName place) (content : ByteArray)
    (hfile : s.disk.kind? place = some (.file content)) :
    let t := stateAfter (Batch.run (inputs.map .ofString) (outputDirectory.map .ofString) formatter) s
    (t.disk.kind? place = some (.file content) ↔
      ∀ gone ∈ Batch.wiped (inputs.map .ofString) (outputDirectory.map .ofString) s.disk,
        ¬ gone <+: place) ∧
    ∀ input ∈ inputs, ∀ directory ∈ outputDirectory, ∀ above below : List String,
      (Batch.absolute s.disk (.ofString input)).GoesDown above →
      (Batch.absolute s.disk (.ofString directory)).GoesDown below → above <+: place →
      t.disk.kind? place ≠ some (.file content) → above <+: below ∧ below <+: place := by
  intro t
  have hplain : ∀ p ∈ inputs.map Path.ofString, p.IsPlain := by
    intro p hp
    obtain ⟨input, -, rfl⟩ := List.mem_map.1 hp
    exact Path.isPlain_ofString input
  obtain ⟨d, hemptied, hsame⟩ := Batch.emptied_of_run hworking hstack hsettings hplain
    (outputDirectory.map .ofString) hformatter
  have hkept : t.disk.kind? place = some (.file content) ↔
      ∀ gone ∈ Batch.wiped (inputs.map .ofString) (outputDirectory.map .ofString) s.disk,
        ¬ gone <+: place := by
    rw [hsame place content hname, hemptied.file, and_iff_right hfile]
  refine ⟨hkept, ?_⟩
  intro input hinput directory hdirectory above below habove hbelow hplace hlost
  obtain ⟨gone, hgone, hin⟩ : ∃ gone ∈ Batch.wiped (inputs.map .ofString)
      (outputDirectory.map .ofString) s.disk, gone <+: place := by
    by_contra hnone
    exact hlost (hkept.2 fun gone hgone hin => hnone ⟨gone, hgone, hin⟩)
  obtain rfl : outputDirectory = some directory := hdirectory
  obtain ⟨hfree, hlocation⟩ := Batch.of_mem_wiped hgone
  rw [Disk.location_of_goesDown hbelow] at hlocation
  have hheld := hfree _ (List.mem_map_of_mem (List.mem_map_of_mem hinput))
  have hdirectory := hlocation.trans hin
  exact ⟨Batch.prefix_of_isBelow_eq_false hbelow habove hheld hplace hdirectory, hdirectory⟩

/-- A project with a testcase, and another one in the directory for modules. -/
def nestedOutput : Disk :=
  ⟨[("p", .directory [("a.json", .file (emptyText "a").toUTF8),
    ("out", .directory [("b.json", .file (emptyText "b").toUTF8)])])], ["p"], []⟩

/-- The whole project is made into a directory of it: a testcase outside of the directory is kept. -/
theorem documents_kept_iff_nestedOutput :
    let s := Session.fresh {} "/p" nestedOutput
    s.disk.currentPath.IsPlain ∧ s.settings.WritesNoDocument ∧
      s.disk.kind? ["p", "a.json"] = some (.file (emptyText "a").toUTF8) ∧
      Batch.wiped [.ofString "."] (some (.ofString "out")) s.disk = [["p", "out"]] ∧
      (stateAfter (Batch.run [.ofString "."] (some (.ofString "out")) none) s).disk.kind? ["p", "a.json"]
        = some (.file (emptyText "a").toUTF8) := by
  intro s
  have hworking : s.disk.currentPath.IsPlain := by
    rw [Path.IsPlain]
    decide
  have hname : Disk.Named Source.IsDocumentName ["p", "a.json"] := ⟨"a.json", rfl, .json, by decide⟩
  have hfile : s.disk.kind? ["p", "a.json"] = some (.file (emptyText "a").toUTF8) := by decide +kernel
  have hwiped : Batch.wiped [.ofString "."] (some (.ofString "out")) s.disk = [["p", "out"]] := by
    decide +kernel
  have hkept := documents_kept_iff s hworking rfl Settings.writesNoDocument_default ["."] (some "out") none
    (by simp) ["p", "a.json"] hname _ hfile
  refine ⟨hworking, Settings.writesNoDocument_default, hfile, hwiped, hkept.1.2 ?_⟩
  intro gone hgone
  obtain rfl : gone = ["p", "out"] := List.mem_singleton.1 (hwiped ▸ hgone)
  decide

/-- The whole project is made into a directory of it: the batch succeeds, and the testcase in the directory
is lost. -/
theorem input_lost_nestedOutput :
    let s := Session.fresh {} "/p" nestedOutput
    s.disk.kind? ["p", "out", "b.json"] = some (.file (emptyText "b").toUTF8) ∧
      ∃ report t, Batch.run [.ofString "."] (some (.ofString "out")) none s = .ok report t ∧
        t.disk.kind? ["p", "out", "b.json"] = none := by
  intro s
  refine ⟨by decide +kernel, ?_⟩
  have hrun : passes (fun _ t => decide (t.disk.kind? ["p", "out", "b.json"] = none))
      (Batch.run [.ofString "."] (some (.ofString "out")) none s) = true := by decide +kernel
  obtain ⟨report, t, hreport, hlost⟩ := exists_of_passes hrun
  exact ⟨report, t, hreport, of_decide_eq_true hlost⟩

end TestScribe
