/-
# Modules written side by side

Several modules are written one after the other.  What they leave behind is told place by place, and does
not depend on their order.  Two things could get in the way: a module that takes the place of another one,
and a temporary file on the way of another module, which is a file at one moment and could be a directory at
another one.

* `Emission.Apart` : neither is the case;
* `Emission.Leaves` : what is known after some modules were written, `Emission.Leaves.fits` : they could all
  have been written at the start;
* `Emission.layout` : what is at a place after some modules were written;
* `Emission.Fits.exists_emit` : one more module is written, `Emission.layout_eq_of_mem_iff` : only the
  modules matter, not their order.
-/
import TestScribe.Proofs.Documents
import TestScribe.Proofs.Writing

namespace TestScribe

/-- Disks with the same kinds at all places have the same files. -/
theorem Disk.read?_eq_of_kind?_eq {d d' : Disk} (hworking : d'.workingDirectory = d.workingDirectory)
    (hkind : ∀ place, d'.kind? place = d.kind? place) (p : Path) : d'.read? p = d.read? p := by
  apply Option.ext
  intro content
  rw [read?_eq_some_iff, read?_eq_some_iff, location_of_workingDirectory_eq hworking,
    way_of_workingDirectory_eq hworking]
  simp only [hkind]

namespace Emission

/-- The path of a module whose file has no temporary name, and neither has the package marker. -/
structure IsModule (marker : String) (output : Path) : Prop where
  names : ∃ name, Names marker output name ∧ ¬ IsTemporaryName name
  marker : ¬ IsTemporaryName marker

/-- Modules do not get in each other's way: different paths lead to different places, and no temporary file
is on the way of a module. -/
structure Apart (d : Disk) (outputs : List Path) : Prop where
  distinct : ∀ p ∈ outputs, ∀ q ∈ outputs, d.location p = d.location q → p = q
  temporary : ∀ p ∈ outputs, ∀ q ∈ outputs, d.location (temporary p) ∉ d.way q

section Names

variable {marker : String} {p q : Path} {d : Disk}

/-- Only temporary files have temporary names. -/
theorem IsModule.ne_temporary (hp : IsModule marker p) (hq : IsModule marker q) :
    d.location p ≠ d.location (temporary q) ∧
      d.location (p.parent.child marker) ≠ d.location (temporary q) := by
  obtain ⟨name, hnames, hname⟩ := hp.names
  obtain ⟨other, hnames', -⟩ := hq.names
  have hlast : (d.location (temporary q)).getLast? = some (other ++ ".tmp") := by
    rw [location_temporary hnames', List.getLast?_concat]
  constructor
  · intro h
    rw [← h, location_output hnames, List.getLast?_concat, Option.some_inj] at hlast
    exact hname ⟨other, hlast⟩
  · intro h
    rw [← h, location_marker hnames, List.getLast?_concat, Option.some_inj] at hlast
    exact hp.marker ⟨other, hlast⟩

end Names

/-! ## What is at a place after a module was written -/

section Written

variable {marker text name : String} {output : Path} {d : Disk} (h : Admits marker output d)

include h

theorem written_of_directory {place : List String} (hplace : d.kind? place = some .directory) :
    written marker text output d place = some .directory := by
  obtain ⟨⟨hloc, -⟩, ⟨htemp, -⟩, -⟩ := h.forall_places
  rw [written, if_neg, if_neg, if_pos (by simp [hplace]), hplace]
  · rintro rfl
    exact htemp hplace
  · rintro rfl
    exact hloc hplace

theorem written_of_mem_way {place : List String} (hplace : place ∈ d.way output) :
    written marker text output d place = some .directory := by
  obtain ⟨⟨-, hloc⟩, ⟨-, htemp⟩, -, hmark⟩ := h.forall_places
  cases hkind : d.kind? place with
  | some kind =>
    cases kind with
    | file content => exact absurd hkind (h.way place hplace content)
    | directory => exact written_of_directory h hkind
  | none =>
    rw [written, if_neg, if_neg, if_neg (by simp [hkind]), if_neg, if_pos hplace]
    · rintro rfl
      exact hmark hplace
    · rintro rfl
      exact htemp hplace
    · rintro rfl
      exact hloc hplace

omit h in
theorem exists_written_of_file {place : List String} {content : ByteArray}
    (hplace : d.kind? place = some (.file content)) (hne : place ≠ d.location (temporary output)) :
    ∃ content', written marker text output d place = some (.file content') := by
  rw [written]
  split_ifs with hloc hkind
  · exact ⟨_, rfl⟩
  · exact ⟨content, hplace⟩
  all_goals simp [hplace] at hkind

omit h in
theorem directory_or_mem_way_of_written {place : List String}
    (hplace : written marker text output d place = some .directory) :
    d.kind? place = some .directory ∨ place ∈ d.way output := by
  rw [written] at hplace
  split_ifs at hplace with hloc htemp hkind hmark hway
  · simp at hplace
  · exact .inl hplace
  · simp at hplace
  · exact .inr hway

theorem exists_written_marker (hnames : Names marker output name) :
    ∃ content, written marker text output d (d.location (output.parent.child marker))
      = some (.file content) := by
  obtain ⟨-, -, hmark, -⟩ := h.forall_places
  obtain ⟨-, hne, hne'⟩ := location_ne (d := d) hnames
  cases hkind : d.kind? (d.location (output.parent.child marker)) with
  | none =>
    rw [written, if_neg hne, if_neg hne', if_neg (by simp [hkind]), if_pos rfl]
    exact ⟨_, rfl⟩
  | some kind =>
    cases kind with
    | file content => exact exists_written_of_file hkind hne'
    | directory => exact absurd hkind hmark

end Written

/-! ## What is known after some modules were written -/

/-- From one disk to another some modules were written: directories stay and are made on the ways of modules
only, files stay but for those in the places of temporary ones, and the files of the modules are there. -/
structure Leaves (marker : String) (outputs : List Path) (d d' : Disk) : Prop where
  workingDirectory : d'.workingDirectory = d.workingDirectory
  directory : ∀ place, d.kind? place = some .directory → d'.kind? place = some .directory
  file : ∀ place content, d.kind? place = some (.file content) →
    (∃ content', d'.kind? place = some (.file content')) ∨
      ∃ p ∈ outputs, place = d.location (temporary p)
  new : ∀ place, d'.kind? place = some .directory →
    d.kind? place = some .directory ∨ ∃ p ∈ outputs, place ∈ d.way p
  way : ∀ p ∈ outputs, ∀ place ∈ d.way p, d'.kind? place = some .directory
  module : ∀ p ∈ outputs, ∃ content, d'.kind? (d.location p) = some (.file content)
  marker : ∀ p ∈ outputs, ∃ content,
    d'.kind? (d.location (p.parent.child marker)) = some (.file content)
  temporary : ∀ p ∈ outputs, d.kind? (d.location (temporary p)) ≠ some .directory

theorem Apart.of_subset {d : Disk} {outputs outputs' : List Path} (h : Apart d outputs)
    (hsubset : outputs' ⊆ outputs) : Apart d outputs' :=
  ⟨fun p hp q hq => h.distinct p (hsubset hp) q (hsubset hq),
    fun p hp q hq => h.temporary p (hsubset hp) q (hsubset hq)⟩

/-- Some modules can all be written, in any order: each of them at the start, and none has a file on the way
of another one or in its place. -/
structure Fits (marker : String) (outputs : List Path) (d : Disk) : Prop where
  isModule : ∀ p ∈ outputs, IsModule marker p
  admits : ∀ p ∈ outputs, Admits marker p d
  off : ∀ p ∈ outputs, ∀ q ∈ outputs, ∀ place ∈ places marker p d, place ∉ d.way q
  distinct : ∀ p ∈ outputs, ∀ q ∈ outputs, d.location p = d.location q → p = q

theorem Fits.of_subset {marker : String} {outputs outputs' : List Path} {d : Disk}
    (h : Fits marker outputs d) (hsubset : outputs' ⊆ outputs) : Fits marker outputs' d :=
  ⟨fun p hp => h.isModule p (hsubset hp), fun p hp => h.admits p (hsubset hp),
    fun p hp q hq => h.off p (hsubset hp) q (hsubset hq),
    fun p hp q hq => h.distinct p (hsubset hp) q (hsubset hq)⟩

section Leaves

variable {marker : String} {outputs : List Path} {d d' d'' : Disk}

theorem Leaves.nil (d : Disk) : Leaves marker [] d d :=
  ⟨rfl, fun _ h => h, fun _ content h => .inl ⟨content, h⟩, fun _ h => .inl h, by simp, by simp, by simp,
    by simp⟩

/-- One more module is written. -/
theorem Leaves.emit (h : Leaves marker outputs d d') (hmodules : ∀ p ∈ outputs, IsModule marker p)
    {output : Path} (houtput : IsModule marker output) (hreliable : d'.IsReliable) {text : String}
    (hemit : Emission.emit marker text output.parent output d' = .ok () d'') :
    Leaves marker (outputs ++ [output]) d d'' ∧ d''.IsReliable := by
  obtain ⟨name, hnames, -⟩ := houtput.names
  have hadmits := admits_of_emit_eq_ok hnames hreliable hemit
  obtain ⟨_, hemit', hreliable', hworking, hkind⟩ := exists_emit_eq_ok hnames hreliable hadmits text
  rw [hemit] at hemit'
  cases hemit'
  have hlocation := Disk.location_of_workingDirectory_eq h.workingDirectory
  have hway := Disk.way_of_workingDirectory_eq h.workingDirectory
  -- what was a directory before stays one, and so does a file but for the temporary one
  have hdirectory : ∀ place, d'.kind? place = some .directory → d''.kind? place = some .directory := by
    intro place hplace
    rw [hkind, written_of_directory hadmits hplace]
  have hfile : ∀ place content, d'.kind? place = some (.file content) →
      place ≠ d.location (Emission.temporary output) →
      ∃ content', d''.kind? place = some (.file content') := by
    intro place content hplace hne
    rw [← hlocation] at hne
    rw [hkind]
    exact exists_written_of_file hplace hne
  refine ⟨⟨hworking.trans h.workingDirectory, fun place hplace => hdirectory _ (h.directory _ hplace),
    ?_, ?_, ?_, ?_, ?_, ?_⟩, hreliable'⟩
  · intro place content hplace
    by_cases hne : place = d.location (Emission.temporary output)
    · exact .inr ⟨output, by simp, hne⟩
    · rcases h.file place content hplace with ⟨content', hplace'⟩ | ⟨p, hp, htemp⟩
      · exact .inl (hfile place content' hplace' hne)
      · exact .inr ⟨p, List.mem_append_left _ hp, htemp⟩
  · intro place hplace
    rw [hkind] at hplace
    rcases directory_or_mem_way_of_written hplace with hplace | hplace
    · rcases h.new place hplace with hplace | ⟨p, hp, hpass⟩
      · exact .inl hplace
      · exact .inr ⟨p, List.mem_append_left _ hp, hpass⟩
    · rw [hway] at hplace
      exact .inr ⟨output, by simp, hplace⟩
  · intro p hp place hplace
    rcases List.mem_append.1 hp with hp | hp
    · exact hdirectory place (h.way p hp place hplace)
    · rw [List.mem_singleton.1 hp, ← hway] at hplace
      rw [hkind, written_of_mem_way hadmits hplace]
  · intro p hp
    rcases List.mem_append.1 hp with hp | hp
    · obtain ⟨content, hplace⟩ := h.module p hp
      exact hfile _ content hplace ((hmodules p hp).ne_temporary houtput).1
    · rw [List.mem_singleton.1 hp, ← hlocation, hkind, written, if_pos rfl]
      exact ⟨_, rfl⟩
  · intro p hp
    rcases List.mem_append.1 hp with hp | hp
    · obtain ⟨content, hplace⟩ := h.marker p hp
      exact hfile _ content hplace ((hmodules p hp).ne_temporary houtput).2
    · rw [List.mem_singleton.1 hp, ← hlocation, hkind]
      exact exists_written_marker hadmits hnames
  · intro p hp
    rcases List.mem_append.1 hp with hp | hp
    · exact h.temporary p hp
    · intro hplace
      rw [List.mem_singleton.1 hp] at hplace
      have hplace' := h.directory _ hplace
      rw [← hlocation] at hplace'
      exact hadmits.forall_places.2.1.1 hplace'

/-- No directory takes the place of a file, if the modules do not get in each other's way. -/
theorem Leaves.kind?_ne_directory (h : Leaves marker outputs d d') (hapart : Apart d outputs)
    {place : List String} {content : ByteArray} (hplace : d.kind? place = some (.file content)) :
    d'.kind? place ≠ some .directory := by
  intro hdirectory
  rcases h.new place hdirectory with hbefore | ⟨p, hp, hpass⟩
  · rw [hplace] at hbefore
    cases hbefore
  · rcases h.file place content hplace with ⟨content', hfile⟩ | ⟨q, hq, rfl⟩
    · rw [hdirectory] at hfile
      cases hfile
    · exact hapart.temporary q hq p hp hpass

/-- Modules that were written one after the other could all have been written at the start, if they do not
get in each other's way. -/
theorem Leaves.fits (h : Leaves marker outputs d d') (hmodules : ∀ p ∈ outputs, IsModule marker p)
    (hworking : d.kind? d.workingDirectory = some .directory) (hapart : Apart d outputs) :
    Fits marker outputs d := by
  -- a place with a file now is on no way, and had no directory before
  have hfile : ∀ place, (∃ content, d'.kind? place = some (.file content)) →
      d.kind? place ≠ some .directory ∧ ∀ q ∈ outputs, place ∉ d.way q := by
    rintro place ⟨content, hplace⟩
    refine ⟨fun hdirectory => ?_, fun q hq hmem => ?_⟩
    · rw [h.directory place hdirectory] at hplace
      cases hplace
    · rw [h.way q hq place hmem] at hplace
      cases hplace
  have hplaces : ∀ p ∈ outputs, ∀ place ∈ places marker p d,
      d.kind? place ≠ some .directory ∧ ∀ q ∈ outputs, place ∉ d.way q := by
    intro p hp
    simp only [places, List.forall_mem_cons, List.not_mem_nil, false_imp_iff, implies_true, and_true]
    exact ⟨hfile _ (h.module p hp), ⟨h.temporary p hp, fun q hq => hapart.temporary p hp q hq⟩,
      hfile _ (h.marker p hp)⟩
  refine ⟨hmodules, fun p hp => ⟨?_, ?_, fun place hplace => ?_⟩,
    fun p hp q hq place hplace => (hplaces p hp place hplace).2 q hq, hapart.distinct⟩
  · rw [Disk.start]
    split
    · exact d.kind?_nil
    · exact hworking
  · intro place hplace content hkind
    rcases h.file place content hkind with ⟨content', hkind'⟩ | ⟨q, hq, rfl⟩
    · rw [h.way p hp place hplace] at hkind'
      cases hkind'
    · exact hapart.temporary q hq p hp hplace
  · exact ⟨(hplaces p hp place hplace).1, (hplaces p hp place hplace).2 p hp⟩

end Leaves

/-! ## Layouts -/

/-- What is at a place after some modules were written, each given with its text. -/
def layout (marker : String) (modules : List (Path × String)) (d : Disk) (place : List String) :
    Option Kind :=
  match modules.find? fun m => d.location m.1 = place with
  | some m => some (.file m.2.toUTF8)
  | none =>
    if ∃ m ∈ modules, place = d.location (temporary m.1) then none
    else if d.kind? place ≠ none then d.kind? place
    else if ∃ m ∈ modules, place = d.location (m.1.parent.child marker) then
      some (.file packageNotice.toUTF8)
    else if ∃ m ∈ modules, place ∈ d.way m.1 then some .directory
    else none

/-- A disk is what another one became when some modules were written. -/
structure Laid (marker : String) (modules : List (Path × String)) (d d' : Disk) : Prop where
  workingDirectory : d'.workingDirectory = d.workingDirectory
  kind? : ∀ place, d'.kind? place = layout marker modules d place

section Layout

variable {marker : String} {modules modules' : List (Path × String)} {d d' : Disk}

theorem layout_nil (place : List String) : layout marker [] d place = d.kind? place := by
  rw [layout]
  cases d.kind? place <;> simp

theorem Laid.nil (d : Disk) : Laid marker [] d d := ⟨rfl, fun place => (layout_nil place).symm⟩

theorem find?_location_eq_none {place : List String}
    (h : ∀ m ∈ modules, d.location m.1 ≠ place) :
    (modules.find? fun m => d.location m.1 = place) = none := by
  rw [List.find?_eq_none]
  intro m hm
  simpa using h m hm

/-- Where no file of the modules is, there is what was there, or a directory on a way. -/
theorem layout_of_forall_ne {place : List String} (hoff : ∀ m ∈ modules, d.location m.1 ≠ place)
    (htemp : ∀ m ∈ modules, place ≠ d.location (temporary m.1)) :
    layout marker modules d place = if d.kind? place ≠ none then d.kind? place
      else if ∃ m ∈ modules, place = d.location (m.1.parent.child marker) then
        some (.file packageNotice.toUTF8)
      else if ∃ m ∈ modules, place ∈ d.way m.1 then some .directory
      else none := by
  rw [layout, find?_location_eq_none hoff]
  dsimp only
  rw [if_neg]
  rintro ⟨m, hm, heq⟩
  exact htemp m hm heq

/-- One more module matters, apart from its own places, where nothing is that was not a temporary file: for
its marker and for its way. -/
theorem layout_concat {output : Path} (text : String) {place : List String}
    (hloc : place ≠ d.location output) (htemp : place ≠ d.location (temporary output))
    (hpass : place = d.location (output.parent.child marker) → ∀ m ∈ modules, place ∉ d.way m.1) :
    layout marker (modules ++ [(output, text)]) d place
      = if layout marker modules d place ≠ none then layout marker modules d place
        else if ∃ m ∈ modules, place = d.location (temporary m.1) then none
        else if place = d.location (output.parent.child marker) then
          some (.file packageNotice.toUTF8)
        else if place ∈ d.way output then some .directory
        else none := by
  have hfind : ((modules ++ [(output, text)]).find? fun m => d.location m.1 = place)
      = modules.find? fun m => d.location m.1 = place := by
    rw [List.find?_append]
    simp [Ne.symm hloc]
  have hexists : ∀ P : Path → Prop, (∃ m ∈ modules ++ [(output, text)], P m.1) ↔
      (∃ m ∈ modules, P m.1) ∨ P output := by
    intro P
    simp only [List.mem_append, List.mem_singleton]
    constructor
    · rintro ⟨m, hm | rfl, hP⟩
      · exact .inl ⟨m, hm, hP⟩
      · exact .inr hP
    · rintro (⟨m, hm, hP⟩ | hP)
      · exact ⟨m, .inl hm, hP⟩
      · exact ⟨_, .inr rfl, hP⟩
  simp only [layout, hfind, hexists fun p => place = d.location (temporary p),
    hexists fun p => place = d.location (p.parent.child marker), hexists fun p => place ∈ d.way p, htemp,
    or_false]
  rcases Option.eq_none_or_eq_some (modules.find? fun m => d.location m.1 = place) with hfound | ⟨m, hfound⟩
  · simp only [hfound]
    by_cases hother : ∃ m ∈ modules, place = d.location (temporary m.1)
    · simp [if_pos hother]
    · simp only [if_neg hother]
      rcases Option.eq_none_or_eq_some (d.kind? place) with hkind | ⟨kind, hkind⟩
      · by_cases hmark : ∃ m ∈ modules, place = d.location (m.1.parent.child marker)
        · simp [hkind, hmark]
        · by_cases hway : ∃ m ∈ modules, place ∈ d.way m.1
          · have hne : place ≠ d.location (output.parent.child marker) := by
              intro heq
              obtain ⟨m, hm, hmem⟩ := hway
              exact hpass heq m hm hmem
            simp [hkind, hmark, hway, hne]
          · simp [hkind, hmark, hway]
      · simp [hkind]
  · simp [hfound]

/-- The layout of the same modules is the same, in whatever order they are given. -/
theorem layout_eq_of_mem_iff (hmem : ∀ m, m ∈ modules ↔ m ∈ modules')
    (hdistinct : ∀ m ∈ modules, ∀ m' ∈ modules, d.location m.1 = d.location m'.1 → m = m')
    (place : List String) : layout marker modules d place = layout marker modules' d place := by
  have hfind : (modules.find? fun m => d.location m.1 = place)
      = modules'.find? fun m => d.location m.1 = place := by
    cases hfound : modules'.find? fun m => d.location m.1 = place with
    | none =>
      rw [List.find?_eq_none] at hfound ⊢
      exact fun m hm => hfound m ((hmem m).1 hm)
    | some m =>
      have hm : m ∈ modules := (hmem m).2 (List.mem_of_find?_eq_some hfound)
      have hplace : d.location m.1 = place := by simpa using List.find?_some hfound
      cases hfound' : modules.find? fun m => d.location m.1 = place with
      | none =>
        rw [List.find?_eq_none] at hfound'
        exact absurd (by simpa using hplace) (hfound' m hm)
      | some m' =>
        have hplace' : d.location m'.1 = place := by simpa using List.find?_some hfound'
        rw [hdistinct m' (List.mem_of_find?_eq_some hfound') m hm (hplace'.trans hplace.symm)]
  simp only [layout, hfind, hmem]

end Layout

/-! ## Writing one more module -/

section Fits

variable {marker : String} {outputs : List Path} {d d' : Disk} (h : Fits marker outputs d)
  {modules : List (Path × String)} (hmodules : ∀ m ∈ modules, m.1 ∈ outputs)

include h

theorem Fits.forall_off {p q : Path} (hp : p ∈ outputs) (hq : q ∈ outputs) :
    d.location p ∉ d.way q ∧ d.location (temporary p) ∉ d.way q ∧
      d.location (p.parent.child marker) ∉ d.way q := by
  have hoff := h.off p hp q hq
  simpa only [places, List.forall_mem_cons, List.not_mem_nil, false_imp_iff, implies_true,
    and_true] using hoff

include hmodules

/-- No file gets on the way of a module. -/
theorem Fits.layout_ne_file {output : Path} (houtput : output ∈ outputs) {place : List String}
    (hplace : place ∈ d.way output) (content : ByteArray) :
    layout marker modules d place ≠ some (.file content) := by
  have hoff : ∀ m ∈ modules, d.location m.1 ≠ place := by
    rintro m hm rfl
    exact (h.forall_off (hmodules m hm) houtput).1 hplace
  have htemp : ∀ m ∈ modules, place ≠ d.location (temporary m.1) := by
    rintro m hm rfl
    exact (h.forall_off (hmodules m hm) houtput).2.1 hplace
  rw [layout_of_forall_ne hoff htemp]
  split_ifs with hkind hmark hway
  · exact (h.admits output houtput).way place hplace content
  · obtain ⟨m, hm, rfl⟩ := hmark
    exact absurd hplace (h.forall_off (hmodules m hm) houtput).2.2
  · simp
  · simp

/-- No directory gets in the place of a file of a module. -/
theorem Fits.layout_ne_directory {output : Path} (houtput : output ∈ outputs) {place : List String}
    (hplace : place ∈ places marker output d) :
    layout marker modules d place ≠ some .directory := by
  rw [layout]
  split
  · simp
  · split_ifs with htemp hkind hmark hway
    · simp
    · exact ((h.admits output houtput).places place hplace).1
    · simp
    · obtain ⟨m, hm, hway⟩ := hway
      exact absurd hway (h.off output houtput m.1 (hmodules m hm) place hplace)
    · simp

/-- A directory stays one. -/
theorem Fits.layout_of_directory {place : List String} (hplace : d.kind? place = some .directory) :
    layout marker modules d place = some .directory := by
  have hoff : ∀ m ∈ modules, d.location m.1 ≠ place := by
    rintro m hm rfl
    exact (h.admits m.1 (hmodules m hm)).forall_places.1.1 hplace
  have htemp : ∀ m ∈ modules, place ≠ d.location (temporary m.1) := by
    rintro m hm rfl
    exact (h.admits m.1 (hmodules m hm)).forall_places.2.1.1 hplace
  rw [layout_of_forall_ne hoff htemp, if_pos (by simp [hplace]), hplace]

/-- Each of the modules can still be written after some of them were. -/
theorem Fits.admits_of_laid (hlaid : Laid marker modules d d') {output : Path}
    (houtput : output ∈ outputs) : Admits marker output d' := by
  have hway := Disk.way_of_workingDirectory_eq hlaid.workingDirectory output
  have hplaces : places marker output d' = places marker output d := by
    simp only [places, Disk.location_of_workingDirectory_eq hlaid.workingDirectory]
  refine ⟨?_, ?_, ?_⟩
  · rw [Disk.start_of_workingDirectory_eq hlaid.workingDirectory, hlaid.kind?]
    exact h.layout_of_directory hmodules (h.admits output houtput).start
  · intro place hplace content
    rw [hway] at hplace
    rw [hlaid.kind?]
    exact h.layout_ne_file hmodules houtput hplace content
  · intro place hplace
    rw [hplaces] at hplace
    rw [hway, hlaid.kind?]
    exact ⟨h.layout_ne_directory hmodules houtput hplace, h.off output houtput output houtput place hplace⟩

/-- What writing one more module does to the layout. -/
theorem Fits.written_eq_layout (hlaid : Laid marker modules d d') {output : Path}
    (houtput : output ∈ outputs) (hnew : ∀ m ∈ modules, m.1 ≠ output) (text : String)
    (place : List String) :
    written marker text output d' place = layout marker (modules ++ [(output, text)]) d place := by
  have hlocation := Disk.location_of_workingDirectory_eq hlaid.workingDirectory
  have hway := Disk.way_of_workingDirectory_eq hlaid.workingDirectory
  have hmodule := h.isModule output houtput
  rw [written, hlocation, hlocation, hlocation, hway, hlaid.kind?]
  by_cases hloc : place = d.location output
  · have hoff : ∀ m ∈ modules, d.location m.1 ≠ place := by
      intro m hm heq
      exact hnew m hm (h.distinct m.1 (hmodules m hm) output houtput (heq.trans hloc))
    rw [if_pos hloc, layout, List.find?_append, find?_location_eq_none hoff]
    simp [hloc]
  by_cases htemp : place = d.location (temporary output)
  · have hoff : ∀ m ∈ modules ++ [(output, text)], d.location m.1 ≠ place := by
      intro m hm heq
      rcases List.mem_append.1 hm with hm | hm
      · exact ((h.isModule m.1 (hmodules m hm)).ne_temporary hmodule).1 (heq.trans htemp)
      · rw [List.mem_singleton.1 hm] at heq
        exact hloc heq.symm
    have hexists : ∃ m ∈ modules ++ [(output, text)], place = d.location (temporary m.1) :=
      ⟨(output, text), by simp, htemp⟩
    rw [if_neg hloc, if_pos htemp, layout, find?_location_eq_none hoff]
    dsimp only
    rw [if_pos hexists]
  have hpass : place = d.location (output.parent.child marker) → ∀ m ∈ modules, place ∉ d.way m.1 := by
    rintro rfl m hm
    exact (h.forall_off houtput (hmodules m hm)).2.2
  rw [if_neg hloc, if_neg htemp, layout_concat text hloc htemp hpass]
  by_cases hother : ∃ m ∈ modules, place = d.location (temporary m.1)
  · -- the place of a temporary file is neither that of the marker nor on the way
    obtain ⟨m, hm, heq⟩ := hother
    have hmark : place ≠ d.location (output.parent.child marker) := by
      rw [heq]
      exact Ne.symm (hmodule.ne_temporary (h.isModule m.1 (hmodules m hm))).2
    have hoff : place ∉ d.way output := by
      rw [heq]
      exact (h.forall_off (hmodules m hm) houtput).2.1
    rw [if_pos (⟨m, hm, heq⟩ : ∃ m ∈ modules, place = d.location (temporary m.1)), if_neg hmark,
      if_neg hoff]
  · rw [if_neg hother]

/-- One more module is written. -/
theorem Fits.exists_emit (hlaid : Laid marker modules d d') (hreliable : d'.IsReliable) {output : Path}
    (houtput : output ∈ outputs) (hnew : ∀ m ∈ modules, m.1 ≠ output) (text : String) :
    ∃ d'', emit marker text output.parent output d' = .ok () d'' ∧ d''.IsReliable ∧
      Laid marker (modules ++ [(output, text)]) d d'' := by
  obtain ⟨name, hnames, -⟩ := (h.isModule output houtput).names
  obtain ⟨d'', hemit, hreliable', hworking, hkind⟩ := exists_emit_eq_ok hnames hreliable
    (h.admits_of_laid hmodules hlaid houtput) text
  refine ⟨d'', hemit, hreliable', hworking.trans hlaid.workingDirectory, fun place => ?_⟩
  rw [hkind, h.written_eq_layout hmodules hlaid houtput hnew text place]

end Fits

end Emission

end TestScribe
