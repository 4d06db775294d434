/-
# Where modules go

The path of a generated module and its class, for a project whose root is fixed.  Two modules that are
written to the same path have the same class, and the dotted name of a module depends on the components
of its path only.

* `Naming.placed` : the module next to a source, and its class;
* `Naming.exists_stem_of_placed` : its file name is a stem with the suffix, its class is named by the stem;
* `Naming.className_eq_of_same` : one path, one class;
* `Naming.exists_stem_of_tidied` : a source with a file name keeps one that has a stem;
* `Naming.not_filler_of_relative` : a source below the root has a stem;
* `Naming.moduleName_of_placed` : one path, one dotted name.
-/
import TestScribe.Proofs.Letters
import TestScribe.Proofs.Outcome
import TestScribe.Proofs.Path

namespace TestScribe.Naming

open TestScribe.Path

/-- The module next to a source below a fixed root, and its class. -/
def placed (root : Path) (suffix : String) (source : Path) : Except PathFault (Path × String) :=
  (tidy root root source).map fun tidied => output tidied suffix

theorem relative_eq_ok_iff {root p q : Path} : relative root p = .ok q ↔ root.after? p = some q := by
  rw [relative]
  split
  · next hafter => rw [hafter, Except.ok.injEq, Option.some_inj]
  · next hafter => rw [hafter]; exact ⟨nofun, nofun⟩

/-! ## Stems -/

theorem isPlain_foldl_child {root : Path} (hroot : root.IsPlain) (segments : List String) :
    (segments.foldl Path.child root).IsPlain := by
  induction segments generalizing root with
  | nil => exact hroot
  | cons segment segments ih => exact ih (isPlain_child hroot segment)

theorem isPlain_tidy {root stemRoot source tidied : Path} (hroot : root.IsPlain)
    (hsource : source.IsPlain) (h : tidy root stemRoot source = .ok tidied) : tidied.IsPlain := by
  obtain ⟨below, -, h⟩ := bind_eq_ok.1 h
  split at h
  · cases h
    exact hsource
  · cases h
    exact isPlain_foldl_child hroot _

theorem notMem_stem {tidied : Path} (h : tidied.IsPlain) : '/' ∉ (tidied.stem?.getD "").toList := by
  rw [stem?]
  cases hname : tidied.fileName? with
  | none => simp
  | some name => exact fun hm => notMem_of_fileName? h hname (mem_of_mem_cutName hm)

/-! ## One path, one class -/

section Placed

variable {root : Path} {suffix : String} (hroot : root.IsPlain) (hsuffix : '/' ∉ suffix.toList)

include hroot hsuffix

/-- A module whose path ends in a name has a stem and the suffix for it, and its class is named by the
stem. -/
theorem exists_stem_of_placed {source p : Path} {className : String} (hsource : source.IsPlain)
    (h : placed root suffix source = .ok (p, className)) {name : String} (hend : p.EndsIn name) :
    ∃ stem, name = stem ++ suffix ∧ className = Naming.className stem := by
  obtain ⟨tidied, htidied, hout⟩ := map_eq_ok.1 h
  cases hout
  refine ⟨tidied.stem?.getD "", EndsIn.of_child ?_ hend, rfl⟩
  rw [String.toList_append, List.mem_append, not_or]
  exact ⟨notMem_stem (isPlain_tidy hroot hsource htidied), hsuffix⟩

/-- Modules at the same path have the same class. -/
theorem className_eq_of_same {source source' p p' : Path} {className className' : String}
    (hsource : source.IsPlain) (hsource' : source'.IsPlain)
    (h : placed root suffix source = .ok (p, className))
    (h' : placed root suffix source' = .ok (p', className')) {name name' : String}
    (hend : p.EndsIn name) (hend' : p'.EndsIn name') (hsame : p.same p') :
    className = className' := by
  obtain ⟨stem, hname, rfl⟩ := exists_stem_of_placed hroot hsuffix hsource h hend
  obtain ⟨stem', hname', rfl⟩ := exists_stem_of_placed hroot hsuffix hsource' h' hend'
  have hnames : some name = some name' := by
    rw [← hend.fileName?_eq, ← hend'.fileName?_eq, fileName?_eq_of_same hsame]
  have hstems : stem = stem' := by
    rw [hname, hname', Option.some_inj] at hnames
    exact (String.append_left_inj suffix).1 hnames
  rw [hstems]

end Placed

/-! ## Segments -/

/-- A sanitized segment is the segment itself, or it has no dot. -/
theorem sanitize_cases (s : String) : sanitize s = s ∨ '.' ∉ (sanitize s).toList := by
  unfold sanitize
  split
  · exact .inl rfl
  · right
    rw [String.toList_ofList, List.mem_append, not_or]
    constructor
    · split <;> decide
    · intro hmem
      obtain ⟨c, -, hc⟩ := List.mem_map.1 hmem
      split at hc
      · exact absurd hc (by decide)
      · next hreplaced => exact hreplaced (by rw [hc]; decide)

theorem sanitize_ne_empty {s : String} (h : s ≠ "") : sanitize s ≠ "" := by
  unfold sanitize
  split
  · exact h
  · rw [Ne, String.ofList_eq_empty_iff, List.append_eq_nil_iff, List.map_eq_nil_iff]
    exact fun hnil => h (by simpa using hnil.2)

theorem notMem_sanitize {s : String} (h : '/' ∉ s.toList) : '/' ∉ (sanitize s).toList := by
  unfold sanitize
  split
  · exact h
  · rw [String.toList_ofList, List.mem_append, not_or]
    constructor
    · split <;> decide
    · intro hmem
      obtain ⟨c, hc, hslash⟩ := List.mem_map.1 hmem
      split at hslash
      · exact absurd hslash (by decide)
      · exact h (hslash ▸ hc)

/-! ## Tidied sources -/

theorem tidySegments_concat {below : Path} {front : List Component} {c : Component}
    (h : below.components = front ++ [c]) (extension : Option String) :
    tidySegments below extension = (front.map fun c => sanitize c.text) ++
      [extension.elim (sanitize c.text) fun e => sanitize c.text ++ "." ++ Text.lower e] := by
  cases extension <;> simp [tidySegments, segments, h]

/-- What is put together from the segments below the root. -/
theorem tidy_of_after? {root source below : Path} {front : List Component} {c : Component}
    (hafter : root.after? source.withoutExtension = some below) (hbelow : below.components = front ++ [c]) :
    tidy root root source = .ok (((front.map fun c => sanitize c.text) ++
      [source.extension?.elim (sanitize c.text) fun e => sanitize c.text ++ "." ++ Text.lower e]).foldl
        Path.child root) := by
  have hne : below ≠ empty := by
    rintro rfl
    exact absurd hbelow (by simp [components, empty, Anchor.components])
  rw [tidy, relative_eq_ok_iff.2 hafter, ← tidySegments_concat hbelow]
  show (if below = empty then _ else _) = _
  rw [if_neg hne]
  rfl

/-- A sanitized name without an extension is a name with a stem. -/
theorem stem_sanitize {name : String} (h : IsName name) (hcut : (cutName name).2 = none) :
    IsName (sanitize name) ∧ (cutName (sanitize name)).1 ∉ ["", "."] := by
  have hname := isFiller_eq_false_iff.1 h.1
  rcases sanitize_cases name with hsame | hnodot
  · rw [hsame, cutName_of_snd_eq_none hcut]
    exact ⟨h, by simpa using hname⟩
  · have hne := sanitize_ne_empty hname.1
    have hdot : ∀ s : String, '.' ∈ s.toList → sanitize name ≠ s :=
      fun s hs heq => hnodot (heq ▸ hs)
    rw [cutName_of_notMem hnodot]
    refine ⟨⟨?_, hdot ".." (by decide)⟩, ?_⟩
    · exact isFiller_eq_false_iff.2 ⟨hne, hdot "." (by decide)⟩
    · simpa using ⟨hne, hdot "." (by decide)⟩

/-- The last segment of a tidied path, for a source with the given file name. -/
def tidyName (name : String) : String :=
  (cutName name).2.elim (sanitize (bareName name))
    fun e => sanitize (bareName name) ++ "." ++ Text.lower e

theorem notMem_tidyName {name : String} (h : '/' ∉ name.toList) : '/' ∉ (tidyName name).toList := by
  have hbare := notMem_sanitize (notMem_bareName h)
  rw [tidyName]
  cases hcut : (cutName name).2 with
  | none =>
    rw [Option.elim_none]
    exact hbare
  | some e =>
    have he := Text.notMem_lower (by decide) fun hslash => h (mem_of_mem_extension hcut hslash)
    simp [hbare, he]

/-- A tidied file name is a name with a stem. -/
theorem isName_tidyName {name : String} (h : IsName name) :
    IsName (tidyName name) ∧ (cutName (tidyName name)).1 ∉ ["", "."] := by
  rw [tidyName]
  cases hcut : (cutName name).2 with
  | none =>
    rw [Option.elim_none, bareName_of_snd_eq_none hcut]
    exact stem_sanitize h hcut
  | some e =>
    obtain ⟨hne, hdot⟩ := isFiller_eq_false_iff.1 (isFiller_bareName h)
    refine isName_append_dot (sanitize_ne_empty hne) ?_ _
    rcases sanitize_cases (bareName name) with hsame | hnodot
    · rwa [hsame]
    · exact fun hdot => hnodot (by rw [hdot]; decide)

/-- The segments of a source that has a file name are those of its directory, sanitized, and the tidied
name. -/
theorem tidySegments_eq {root source below : Path} {name : String}
    (hnormal : source.normalize = source) (hname : source.fileName? = some name)
    (hbelow : root.after? source.withoutExtension = some below) (hne : below ≠ empty) :
    tidySegments below source.extension?
      = (below.components.dropLast.map fun c => sanitize c.text) ++ [tidyName name] := by
  have hend := endsIn_of_normal hnormal hname
  -- The last component below the root is that of the file name without its extension.
  obtain ⟨c, hc, hcomponents⟩ : ∃ c, componentOf? (bareName name) = some c ∧
      source.withoutExtension.components = source.components.dropLast ++ [c] := by
    rw [hend.components_withoutExtension]
    cases hc : componentOf? (bareName name) with
    | none =>
      rw [componentOf?_eq_none_iff, isFiller_bareName hend.2] at hc
      exact absurd hc Bool.false_ne_true
    | some c => exact ⟨c, rfl, rfl⟩
  obtain ⟨front, hfront⟩ : ∃ front, below.components = front ++ [c] := by
    rw [components_of_after? hbelow] at hcomponents
    rcases List.eq_nil_or_concat below.components with hnil | ⟨front, last, hlast⟩
    · exact absurd (eq_empty_of_after? hbelow hnil) hne
    · rw [hlast, List.concat_eq_append, ← List.append_assoc] at hcomponents
      obtain ⟨-, h⟩ := List.append_inj' hcomponents rfl
      cases h
      exact ⟨front, by rw [hlast, List.concat_eq_append]⟩
  have hextension : source.extension? = (cutName name).2 := by rw [extension?, hname]; rfl
  rw [tidySegments_concat hfront, text_of_componentOf? hc, hextension, tidyName, hfront,
    List.dropLast_concat]

/-- The tidied path of a source that has a file name ends in a name, whose stem is not a single dot. -/
theorem exists_stem_of_tidied {root source below : Path} {name : String} (hsource : source.IsPlain)
    (hnormal : source.normalize = source) (hname : source.fileName? = some name)
    (hbelow : root.after? source.withoutExtension = some below) (hne : below ≠ empty) :
    ∃ stem, ((tidySegments below source.extension?).foldl Path.child root).stem? = some stem ∧
      stem ∉ ["", "."] := by
  have hsegments := tidySegments_eq hnormal hname hbelow hne
  obtain ⟨hisName, hstem⟩ := isName_tidyName (endsIn_of_normal hnormal hname).2
  have hplain := notMem_tidyName (notMem_of_fileName? hsource hname)
  refine ⟨(cutName (tidyName name)).1, ?_, hstem⟩
  rw [hsegments, List.foldl_append, List.foldl_cons, List.foldl_nil, stem?,
    (endsIn_child hplain hisName).fileName?_eq]
  rfl

/-- A source without a file name stays without one, and so does its directory. -/
theorem components_tidied_of_fileName?_eq_none {root source below : Path}
    (hnormal : source.normalize = source) (hname : source.fileName? = none)
    (hbelow : root.after? source.withoutExtension = some below) (hne : below ≠ empty) :
    ((tidySegments below source.extension?).foldl Path.child root).components
      ∈ [[], [.root], [.up], [.root, .up]] := by
  have hnonempty : below.components ≠ [] := fun hnil => hne (eq_empty_of_after? hbelow hnil)
  have hextension : source.extension? = none := by rw [extension?, hname]; rfl
  have hsame : source.withoutExtension = source := by rw [withoutExtension, hname]
  have htop : ∀ p : Path, (p.child "/").components = [.root] := by
    intro p
    rw [child, join, if_pos (by decide)]
    decide
  have hup : ∀ p : Path, (p.child "..").components = p.components ++ [.up] := by
    intro p
    rw [components_child (by decide) (by decide) (by decide)]
    rfl
  have hcomponents := components_of_after? hbelow
  have hfour := components_of_normal_of_fileName?_eq_none hnormal hname
  rw [hsame] at hcomponents
  rw [hcomponents] at hfour
  have hsegments : tidySegments below none = below.components.map fun c => sanitize c.text := by
    simp [tidySegments, segments]
  rw [hextension, hsegments]
  -- The root takes a leading part of these components, and what is below it is not empty.
  generalize below.components = cs at hfour hnonempty ⊢
  have hcases : (cs = [.root] ∨ cs = [.root, .up]) ∨ root.components ∈ [[], [.root]] ∧ cs = [.up] := by
    cases hfront : root.components with
    | nil => simp_all; tauto
    | cons c front => cases front <;> cases cs <;> simp_all
  have hslash : sanitize "/" = "/" := rfl
  have hdots : sanitize ".." = ".." := rfl
  rcases hcases with (rfl | rfl) | ⟨hroot, rfl⟩
  · simp [Component.text, hslash, htop]
  · simp [Component.text, hslash, hdots, htop, hup]
  · rw [List.mem_pair] at hroot
    rcases hroot with hroot | hroot <;> simp [Component.text, hdots, hup, hroot]

/-! ## Dotted names -/

/-- Modules at the same path have the same dotted name. -/
theorem moduleName_of_same {root p p' : Path} {name name' dotted : String} (hend : p.EndsIn name)
    (hend' : p'.EndsIn name') (hsame : p.same p') (h : moduleName root p = .ok dotted) :
    moduleName root p' = .ok dotted := by
  have hnames : name = name' := by
    rw [← Option.some_inj, ← hend.fileName?_eq, ← hend'.fileName?_eq, fileName?_eq_of_same hsame]
  -- Equal components would not be enough: only a path that ends in its name loses the extension of
  -- that name and nothing else.
  have hbare : p.withoutExtension.components = p'.withoutExtension.components := by
    rw [hend.components_withoutExtension, hend'.components_withoutExtension, same_iff.1 hsame, hnames]
  obtain ⟨below, hbelow, rfl⟩ := map_eq_ok.1 h
  obtain ⟨below', hbelow', hcomponents⟩ := after?_of_components_eq hbare (relative_eq_ok_iff.1 hbelow)
  refine map_eq_ok.2 ⟨below', relative_eq_ok_iff.2 hbelow', ?_⟩
  rw [segments, segments, hcomponents]

/-- The text of a filler begins with a filler only. -/
theorem mem_fillers_of_append {stem suffix : String} (h : isFiller (stem ++ suffix)) :
    stem ∈ ["", "."] := by
  rcases isFiller_iff.1 h with h | h
  · rw [String.append_eq_empty_iff] at h
    simp [h.1]
  · have hlist : stem.toList ++ suffix.toList = ['.'] := by rw [← String.toList_append, h]; rfl
    rcases List.append_eq_singleton_iff.1 hlist with ⟨hstem, -⟩ | ⟨hstem, -⟩
    · simp [String.toList_eq_nil_iff.1 hstem]
    · simp [String.toList_injective (hstem.trans (by rfl : ['.'] = ".".toList))]

/-- A source whose stem is a filler is left as it is when it is tidied, and is the root but for its
extension, unless its directory has no name to end in. -/
theorem tidied_eq_of_filler {root source tidied : Path} (hsource : source.IsPlain)
    (hnormal : source.normalize = source) (htidied : tidy root root source = .ok tidied)
    (hstem : tidied.stem?.getD "" ∈ ["", "."]) {name : String}
    (hlast : tidied.components.dropLast.getLast? = some (.name name)) :
    tidied = source ∧ source.withoutExtension.components = root.components := by
  obtain ⟨below, hbelow, htidied⟩ := bind_eq_ok.1 htidied
  have hafter := relative_eq_ok_iff.1 hbelow
  split at htidied
  · next hempty =>
    cases htidied
    have hcomponents := components_of_after? hafter
    rw [hempty, show empty.components = [] from rfl, List.append_nil] at hcomponents
    exact ⟨rfl, hcomponents⟩
  · next hne =>
    exfalso
    cases htidied
    cases hname : source.fileName? with
    | some n =>
      obtain ⟨stem, hsome, hnotMem⟩ := exists_stem_of_tidied hsource hnormal hname hafter hne
      rw [hsome] at hstem
      exact hnotMem hstem
    | none =>
      have hfour := components_tidied_of_fileName?_eq_none hnormal hname hafter hne
      revert hlast
      generalize ((tidySegments below source.extension?).foldl Path.child root).components = cs at *
      simp only [List.mem_cons, List.not_mem_nil, or_false] at hfour
      rcases hfour with rfl | rfl | rfl | rfl <;> simp

/-- A module that has a file name ends in it, unless its stem is a filler: then it lies at the directory
of its source. -/
theorem endsIn_or_filler {tidied : Path} {stem suffix name : String}
    (hfile : '/' ∉ (stem ++ suffix).toList)
    (hname : (tidied.parent.child (stem ++ suffix)).fileName? = some name) :
    (tidied.parent.child (stem ++ suffix)).EndsIn name ∨ stem ∈ ["", "."] ∧
      (tidied.parent.child (stem ++ suffix)).components = tidied.components.dropLast ∧
      tidied.components.dropLast.getLast? = some (.name name) := by
  cases hfiller : isFiller (stem ++ suffix) with
  | false =>
    left
    have hup : stem ++ suffix ≠ ".." := by
      intro hup
      rw [hup, fileName?_eq_some_iff, components_child (by decide) (by decide) (by decide),
        show componentOf? ".." = some .up from rfl, Option.toList_some, List.getLast?_concat] at hname
      cases hname
    have hend := endsIn_child (p := tidied.parent) hfile ⟨hfiller, hup⟩
    rw [hend.fileName?_eq, Option.some_inj] at hname
    rwa [← hname]
  | true =>
    right
    have hparent : tidied.parent ≠ Path.empty := by
      intro hempty
      rw [hempty] at hname
      rcases isFiller_iff.1 hfiller with h | h <;> rw [h] at hname <;> cases hname
    have hcomponents := components_child_of_isFiller hparent hfiller
    rw [components_parent] at hcomponents
    rw [fileName?_eq_some_iff, hcomponents] at hname
    exact ⟨mem_fillers_of_append hfiller, hcomponents, hname⟩

/-- A module below the root that has a file name ends in it: the module of a source whose stem is a
filler lies at the directory of the source, and is not below the root. -/
theorem endsIn_of_placed {root source p : Path} {suffix className name dotted : String}
    (hroot : root.IsPlain) (hsuffix : '/' ∉ suffix.toList) (hsource : source.IsPlain)
    (hnormal : source.normalize = source) (hplaced : placed root suffix source = .ok (p, className))
    (hname : p.fileName? = some name) (h : moduleName root p = .ok dotted) : p.EndsIn name := by
  obtain ⟨tidied, htidied, hout⟩ := map_eq_ok.1 hplaced
  have hplain := notMem_stem (isPlain_tidy hroot hsource htidied)
  generalize hstem : tidied.stem?.getD "" = stem at hplain
  rw [output, hstem, Prod.mk.injEq] at hout
  obtain ⟨rfl, -⟩ := hout
  have hfile : '/' ∉ (stem ++ suffix).toList := by
    rw [String.toList_append, List.mem_append, not_or]
    exact ⟨hplain, hsuffix⟩
  refine (endsIn_or_filler hfile hname).resolve_right ?_
  rintro ⟨hfiller, hcomponents, hlast⟩
  -- Then it lies at the directory of its source, and the root is as deep as the source.
  obtain ⟨rfl, hroot⟩ := tidied_eq_of_filler hsource hnormal htidied (hstem ▸ hfiller) hlast
  have hdeep := length_withoutExtension_of_normal hnormal (hstem ▸ hfiller)
  obtain ⟨below, hbelow, -⟩ := map_eq_ok.1 h
  have hshort := length_withoutExtension_le (tidied.parent.child (stem ++ suffix))
  rw [components_of_after? (relative_eq_ok_iff.1 hbelow), hcomponents, List.length_append,
    List.length_dropLast] at hshort
  have hpos := List.length_pos_of_mem (List.mem_of_getLast? hlast)
  rw [List.length_dropLast] at hpos
  rw [hroot] at hdeep
  omega

/-- A source whose stem is a filler does not lie below the root. -/
theorem not_filler_of_relative {root source tidied below : Path} (hsource : source.IsPlain)
    (hnormal : source.normalize = source) (htidied : tidy root root source = .ok tidied)
    (hbelow : relative root source = .ok below) {name : String}
    (hlast : tidied.components.dropLast.getLast? = some (.name name)) :
    tidied.stem?.getD "" ∉ ["", "."] := by
  intro hstem
  obtain ⟨rfl, hroot⟩ := tidied_eq_of_filler hsource hnormal htidied hstem hlast
  have hcomponents := components_of_after? (relative_eq_ok_iff.1 hbelow)
  rw [← hroot] at hcomponents
  cases hname : tidied.fileName? with
  | none =>
    have hfour := components_of_normal_of_fileName?_eq_none hnormal hname
    simp only [List.mem_cons, List.not_mem_nil, or_false] at hfour
    rcases hfour with h | h | h | h <;> rw [h] at hlast <;> simp at hlast
  | some n =>
    -- the last component of the source is a name, that of the root is not
    have hend := endsIn_of_normal hnormal hname
    rw [stem?, hname] at hstem
    rw [hend.components_withoutExtension, bareName_of_filler hend.2 hstem, hend.components_eq,
      List.dropLast_concat, List.append_assoc] at hcomponents
    have htail := List.append_cancel_left hcomponents
    rw [show componentOf? ".." = some .up from rfl] at htail
    simp at htail

/-- A module whose own path is that of another module has the dotted name of that module. -/
theorem moduleName_of_placed {root source p p' : Path} {suffix className name dotted : String}
    (hroot : root.IsPlain) (hsuffix : '/' ∉ suffix.toList) (hsource : source.IsPlain)
    (hnormal : source.normalize = source) (hplaced : placed root suffix source = .ok (p, className))
    (hend : p'.EndsIn name) (hsame : p'.same p) (h : moduleName root p = .ok dotted) :
    moduleName root p' = .ok dotted := by
  have hname : p.fileName? = some name := by rw [← fileName?_eq_of_same hsame, hend.fileName?_eq]
  have hsame' : p.same p' := same_iff.2 (same_iff.1 hsame).symm
  exact moduleName_of_same (endsIn_of_placed hroot hsuffix hsource hnormal hplaced hname h) hend hsame' h

end TestScribe.Naming
