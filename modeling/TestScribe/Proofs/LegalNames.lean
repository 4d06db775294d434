/-
# Identifiers taken from paths

The class of a generated module, and the parts of its dotted name, are identifiers if the segments of the source
below the root can be spelled with letters, digits, underscores and the characters that are replaced, and none
begins with a dot.  A segment that begins with a dot is kept as it is, and makes a part of the dotted name empty.

* `IsLegalName` : well-formed identifiers;
* `Naming.IsSpellable`, `Naming.isLegalName_sanitize` : segments that sanitizing makes into identifiers;
* `Naming.names_of_placed` : the class and the dotted name of a module, from the segments of its source;
* `names_legal` : for which sources all names are identifiers.
-/
import TestScribe.Proofs.Aliases
import TestScribe.Proofs.Climbing

namespace TestScribe

/-! ## Identifiers -/

/-- A letter, a digit or an underscore; beyond ASCII, any character. -/
def isWordChar (c : Char) : Bool := 0x80 ≤ c.toNat || c.isAlphanum || c = '_'

/-- A well-formed identifier. -/
structure IsLegalName (s : String) : Prop where
  nonempty : s ≠ ""
  head : s.toList.head?.any Text.isDigit = false
  chars : s.toList.all isWordChar = true

instance (s : String) : Decidable (IsLegalName s) :=
  decidable_of_iff (s ≠ "" ∧ s.toList.head?.any Text.isDigit = false ∧ s.toList.all isWordChar = true)
    ⟨fun h => ⟨h.1, h.2.1, h.2.2⟩, fun h => ⟨h.nonempty, h.head, h.chars⟩⟩

theorem isWordChar_of_isLetterLike {c : Char} (h : Text.isLetterLike c = true) : isWordChar c = true := by
  rw [Text.isLetterLike, Bool.or_eq_true] at h
  rw [isWordChar, Bool.or_eq_true, Bool.or_eq_true, Char.isAlphanum, Bool.or_eq_true]
  exact .inl (h.imp_right .inl)

theorem IsLegalName.notMem_dot {s : String} (h : IsLegalName s) : '.' ∉ s.toList :=
  fun hmem => absurd (List.all_eq_true.1 h.chars '.' hmem) (by decide)

/-- An identifier stays one with more word characters behind it. -/
theorem IsLegalName.append {s t : String} (h : IsLegalName s) (ht : t.toList.all isWordChar = true) :
    IsLegalName (s ++ t) := by
  refine ⟨?_, ?_, ?_⟩
  · rw [Ne, String.append_eq_empty_iff]
    exact fun hempty => h.nonempty hempty.1
  · obtain ⟨first, rest, hs⟩ := List.exists_cons_of_ne_nil (mt String.toList_eq_nil_iff.1 h.nonempty)
    have hhead := h.head
    rw [hs] at hhead
    rwa [String.toList_append, hs]
  · rw [String.toList_append, List.all_append, h.chars, ht]
    rfl

/-! ## Segments -/

namespace Naming

/-- A segment that sanitizing makes into an identifier. -/
structure IsSpellable (segment : String) : Prop where
  head : segment.toList.head? ≠ some '.'
  chars : segment.toList.all (fun c => isWordChar c || isReplaced c) = true

instance (segment : String) : Decidable (IsSpellable segment) :=
  decidable_of_iff (segment.toList.head? ≠ some '.' ∧
      segment.toList.all (fun c => isWordChar c || isReplaced c) = true)
    ⟨fun h => ⟨h.1, h.2⟩, fun h => ⟨h.head, h.chars⟩⟩

theorem sanitize_of_head_eq_dot {segment : String} (h : segment.toList.head? = some '.') :
    sanitize segment = segment := by
  obtain ⟨rest, hrest⟩ := List.head?_eq_some_iff.1 h
  unfold sanitize
  rw [hrest]
  rfl

theorem toList_sanitize {segment : String} (h : segment.toList.head? ≠ some '.') :
    (sanitize segment).toList = (if (segment.toList.head?.map Text.isDigit).getD false then ['T'] else []) ++
      segment.toList.map fun c => if isReplaced c then '_' else c := by
  unfold sanitize
  split
  · next hdot =>
    rw [hdot] at h
    exact absurd rfl h
  · rw [String.toList_ofList]

/-- A digit at the start of a segment gets a letter before it. -/
theorem head_sanitize {segment : String} (h : segment.toList.head? ≠ some '.') :
    (sanitize segment).toList.head?.any Text.isDigit = false := by
  rw [toList_sanitize h]
  cases segment.toList with
  | nil => rfl
  | cons first rest =>
    rw [List.head?_cons, Option.map_some, Option.getD_some]
    split
    · rfl
    · next hdigit =>
      rw [List.nil_append, List.map_cons, List.head?_cons, Option.any_some]
      split
      · decide
      · exact Bool.eq_false_iff.2 hdigit

theorem isLegalName_sanitize {segment : String} (hne : segment ≠ "") (h : IsSpellable segment) :
    IsLegalName (sanitize segment) := by
  refine ⟨sanitize_ne_empty hne, head_sanitize h.head, ?_⟩
  rw [toList_sanitize h.head, List.all_append, Bool.and_eq_true, List.all_map]
  constructor
  · split <;> decide
  · refine List.all_eq_true.2 fun c hc => ?_
    have hc := List.all_eq_true.1 h.chars c hc
    rw [Bool.or_eq_true] at hc
    rw [Function.comp_apply]
    split
    · decide
    · next hreplaced => exact hc.resolve_right hreplaced

end Naming

/-! ## Segments below the root -/

namespace Path

/-- After its start, a path has the components of its pieces. -/
theorem exists_piece_of_mem_tail {p : Path} {c : Component} (h : c ∈ p.components.tail) :
    ∃ piece ∈ p.pieces, componentOf? piece = some c := by
  obtain ⟨anchor, pieces⟩ := p
  refine List.mem_filterMap.1 ?_
  cases anchor with
  | root => exact h
  | here => exact h
  | none => exact List.mem_of_mem_tail h

theorem isPlain_withoutExtension {p : Path} (h : p.IsPlain) : p.withoutExtension.IsPlain := by
  unfold withoutExtension
  split
  · next name hname =>
    have hplain := notMem_of_fileName? h hname
    intro piece hpiece
    rcases List.mem_append.1 hpiece with hpiece | hpiece
    · exact h piece ((trimEnd_isPrefix _).subset (List.mem_of_mem_dropLast hpiece))
    · rw [List.mem_singleton.1 hpiece]
      split
      · exact notMem_bareName hplain
      · exact fun hmem => hplain (mem_of_mem_cutName hmem)
  · exact h

theorem anchor_withoutExtension (p : Path) : p.withoutExtension.anchor = p.anchor := by
  unfold withoutExtension
  split <;> rfl

/-- A file name without an extension is kept. -/
theorem fileName?_withoutExtension {p : Path} {name : String} (hname : p.fileName? = some name)
    (hcut : (cutName name).2 = none) : p.withoutExtension.fileName? = some name := by
  obtain ⟨hfiller, hup⟩ := (exists_trimEnd_of_fileName? hname).1
  obtain ⟨bare, hbare, hcomponents⟩ := components_withoutExtension hname
  rw [bareName_of_snd_eq_none hcut, cutName_of_snd_eq_none hcut, or_self] at hbare
  rw [fileName?_eq_some_iff, hcomponents, hbare, componentOf?_of_name hfiller hup]
  exact List.getLast?_concat

/-- Below a root that has components, every segment is a piece. -/
theorem mem_segments_of_after? {base p below : Path} (hbase : base.components ≠ [])
    (h : base.after? p = some below) (hp : p.IsPlain) {segment : String} (hsegment : segment ∈ below.segments) :
    isFiller segment = false ∧ '/' ∉ segment.toList := by
  obtain ⟨c, hc, rfl⟩ := List.mem_map.1 hsegment
  obtain ⟨first, rest, hfirst⟩ := List.exists_cons_of_ne_nil hbase
  obtain ⟨piece, hpiece, hcomponent⟩ : ∃ piece ∈ p.pieces, componentOf? piece = some c := by
    apply exists_piece_of_mem_tail
    rw [components_of_after? h, hfirst]
    exact List.mem_append_right rest hc
  rw [text_of_componentOf? hcomponent]
  exact ⟨(componentOf?_cases hcomponent).1, hp piece hpiece⟩

theorem map_text_filterMap {segments : List String} (h : ∀ segment ∈ segments, isFiller segment = false) :
    (segments.filterMap componentOf?).map Component.text = segments := by
  induction segments with
  | nil => rfl
  | cons segment rest ih =>
    rw [List.forall_mem_cons] at h
    obtain ⟨c, hc⟩ := Option.ne_none_iff_exists'.1 fun hnone =>
      Bool.false_ne_true (h.1.symm.trans (componentOf?_eq_none_iff.1 hnone))
    rw [List.filterMap_cons_some hc, List.map_cons, text_of_componentOf? hc, ih h.2]

end Path

/-! ## Names of modules -/

namespace Naming

open TestScribe.Path

/-- The path of a module ends in the stem of its source and the suffix, with the extension and without it. -/
theorem components_output {tidied : Path} {stem : String} (hstem : tidied.stem?.getD "" = stem)
    (hplain : '/' ∉ stem.toList) :
    (output tidied "_test.py").1.components = tidied.components.dropLast ++ [.name (stem ++ "_test.py")] ∧
      (output tidied "_test.py").1.withoutExtension.components
        = tidied.components.dropLast ++ [.name (stem ++ "_test")] := by
  have hisName : IsName (stem ++ "_test.py") := isName_append ⟨'_', by decide, by decide⟩ _
  have hplain : '/' ∉ (stem ++ "_test.py").toList := by
    rw [String.toList_append, List.mem_append, not_or]
    exact ⟨hplain, by decide⟩
  obtain ⟨hne, hdot⟩ := isFiller_eq_false_iff.1 hisName.1
  have hcomponents := components_child (p := tidied.parent) hplain hne hdot
  rw [componentOf?_of_name hisName.1 hisName.2, Option.toList_some, components_parent] at hcomponents
  rw [output, hstem]
  refine ⟨hcomponents, ?_⟩
  rw [components_withoutExtension_of_endsIn_test (endsIn_child hplain hisName), hcomponents, List.dropLast_concat]

section Names

variable {root source below : Path} {front : List String} {last : String}

/-- The file that a tidied path ends in has the last segment as its stem. -/
theorem exists_file_of_tidySegments {name : String} (hsource : source.IsPlain)
    (hname : source.fileName? = some name) (hafter : root.after? source.withoutExtension = some below)
    (hsegments : below.segments = front ++ [last]) (hlast : isFiller last = false ∧ '/' ∉ last.toList) :
    ∃ file, tidySegments below source.extension? = front.map sanitize ++ [file] ∧
      (IsName file ∧ '/' ∉ file.toList) ∧ (cutName file).1 = sanitize last := by
  obtain ⟨components, c, hcomponents, rfl, hc⟩ := List.map_eq_append_iff.1 hsegments
  obtain ⟨c, rfl, rfl⟩ := List.map_eq_singleton_iff.1 hc
  have hextension : source.extension? = (cutName name).2 := by
    rw [extension?, hname]
    rfl
  have hsanitized := isFiller_eq_false_iff.1 (isFiller_sanitize hlast.1)
  refine ⟨_, by rw [tidySegments_concat hcomponents, List.map_map]; rfl, ?_⟩
  rw [hextension]
  cases hcut : (cutName name).2 with
  | some e =>
    have hdot : '.' ∉ (Text.lower e).toList := Text.notMem_lower (by decide) (notMem_extension hcut)
    refine ⟨⟨(isName_append_dot hsanitized.1 hsanitized.2 _).1, ?_⟩, ?_⟩
    · have hslash : '/' ∉ (Text.lower e).toList := Text.notMem_lower (by decide) fun hmem =>
        notMem_of_fileName? hsource hname (mem_of_mem_extension hcut hmem)
      simp [notMem_sanitize hlast.2, hslash]
    · rw [Option.elim_some, cutName_append_dot _ hdot, if_neg hsanitized.1]
  | none =>
    -- then the last segment is the file name, which has no extension to lose
    have hlastName : c = .name name := by
      have hkept := fileName?_eq_some_iff.1 (fileName?_withoutExtension hname hcut)
      rw [components_of_after? hafter, hcomponents, ← List.append_assoc, List.getLast?_concat] at hkept
      exact Option.some_inj.1 hkept
    obtain rfl := hlastName
    have hisName : IsName name := (exists_trimEnd_of_fileName? hname).1
    refine ⟨⟨isName_sanitize hisName, notMem_sanitize hlast.2⟩, ?_⟩
    rcases sanitize_cases name with hsame | hdot
    · exact (congrArg (fun n => (cutName n).1) hsame).trans ((cutName_of_snd_eq_none hcut).trans hsame.symm)
    · exact cutName_of_notMem hdot

section Placed

variable {tidied output : Path} {className dotted : String} (hbase : root.components ≠ [])
  (hsource : source.IsPlain) (hname : source.fileName? ≠ none)
  (hafter : root.after? source.withoutExtension = some below) (hsegments : below.segments = front ++ [last])

include hbase hsource hname hafter hsegments

/-- A tidied source lies where the sanitized segments before the last lead to, and has the last one as its stem. -/
theorem stem_of_tidy (htidied : tidy root root source = .ok tidied) :
    tidied.components.dropLast = root.components ++ (front.map sanitize).filterMap componentOf? ∧
      tidied.stem?.getD "" = sanitize last := by
  obtain ⟨name, hname⟩ := Option.ne_none_iff_exists'.1 hname
  have hpieces : ∀ segment ∈ below.segments, isFiller segment = false ∧ '/' ∉ segment.toList :=
    fun segment => mem_segments_of_after? hbase hafter (isPlain_withoutExtension hsource)
  rw [hsegments, List.forall_mem_append, List.forall_mem_singleton] at hpieces
  obtain ⟨hfront, hlast⟩ := hpieces
  obtain ⟨file, hfile, ⟨hisName, hplain⟩, hstem⟩ :=
    exists_file_of_tidySegments hsource hname hafter hsegments hlast
  have hwritten : ∀ segment ∈ front.map sanitize ++ [file], isFiller segment = false ∧ '/' ∉ segment.toList := by
    rw [List.forall_mem_append, List.forall_mem_map, List.forall_mem_singleton]
    refine ⟨fun segment hsegment => ?_, hisName.1, hplain⟩
    exact ⟨isFiller_sanitize (hfront segment hsegment).1, notMem_sanitize (hfront segment hsegment).2⟩
  have hne : below ≠ empty := by
    rintro rfl
    exact absurd hsegments (by simp [segments, components, empty, Anchor.components])
  obtain ⟨below', hbelow', htidied⟩ := bind_eq_ok.1 htidied
  rw [relative_eq_ok_iff, hafter, Option.some_inj] at hbelow'
  obtain rfl := hbelow'
  rw [if_neg hne, hfile] at htidied
  cases htidied
  have hcomponents := components_foldl_child hwritten root
  rw [List.filterMap_append, List.filterMap_cons_some (componentOf?_of_name hisName.1 hisName.2),
    List.filterMap_nil, ← List.append_assoc] at hcomponents
  refine ⟨by rw [hcomponents, List.dropLast_concat], ?_⟩
  rw [stem?, fileName?_eq_some_iff.2 (by rw [hcomponents, List.getLast?_concat])]
  exact hstem

/-- The class of a module is named by the last segment of its source, and its dotted name has the segments
between the dots. -/
theorem names_of_placed (hplaced : placed root "_test.py" source = .ok (output, className))
    (hmodule : moduleName root output = .ok dotted) :
    className = Naming.className (sanitize last) ∧
      dotted = Text.joinWith "." (front.map sanitize ++ [sanitize last ++ "_test"]) := by
  have hwritten : ∀ segment ∈ front ++ [last], isFiller segment = false ∧ '/' ∉ segment.toList := by
    rw [← hsegments]
    exact fun segment => mem_segments_of_after? hbase hafter (isPlain_withoutExtension hsource)
  rw [List.forall_mem_append, List.forall_mem_singleton] at hwritten
  obtain ⟨tidied, htidied, hout⟩ := map_eq_ok.1 hplaced
  obtain ⟨hparent, hstem⟩ := stem_of_tidy hbase hsource hname hafter hsegments htidied
  obtain ⟨-, hcomponents⟩ := components_output hstem (notMem_sanitize hwritten.2.2)
  rw [hout] at hcomponents
  obtain ⟨below', hbelow', rfl⟩ := map_eq_ok.1 hmodule
  rw [hparent, components_of_after? (relative_eq_ok_iff.1 hbelow'), List.append_assoc] at hcomponents
  refine ⟨hstem ▸ (congrArg Prod.snd hout).symm, ?_⟩
  have hfront : ∀ segment ∈ front.map sanitize, isFiller segment = false := by
    rw [List.forall_mem_map]
    exact fun segment hsegment => isFiller_sanitize (hwritten.1 segment hsegment).1
  rw [segments, List.append_cancel_left hcomponents, List.map_append, map_text_filterMap hfront]
  rfl

end Placed

/-- A path that starts at the top and can be spelled below the root has a file name, and the root is not empty. -/
theorem exists_fileName_of_spellable (habsolute : source.isAbsolute = true)
    (hafter : root.after? source.withoutExtension = some below) (hsegments : below.segments = front ++ [last])
    (hspellable : ∀ segment ∈ below.segments, IsSpellable segment) :
    root.components ≠ [] ∧ source.fileName? ≠ none := by
  have hcomponents := components_of_after? hafter
  constructor
  · -- otherwise the top is one of the segments
    intro hnil
    have htop : Component.root ∈ below.components := by
      rw [hnil, List.nil_append] at hcomponents
      rw [← hcomponents, components, anchor_withoutExtension, of_decide_eq_true habsolute]
      exact List.mem_cons_self
    exact absurd (hspellable _ (List.mem_map_of_mem htop)) (by decide)
  · intro hnone
    rw [withoutExtension, hnone] at hcomponents
    obtain ⟨cs, ds, hcs, -, hds⟩ := List.map_eq_append_iff.1 hsegments
    obtain ⟨c, rfl, rfl⟩ := List.map_eq_singleton_iff.1 hds
    have hlast := hspellable c.text (hsegments ▸ List.mem_append_right _ List.mem_cons_self)
    cases c with
    | root | here | up => exact absurd hlast (by decide)
    | name s =>
      rw [fileName?, hcomponents, hcs, ← List.append_assoc, List.getLast?_concat] at hnone
      cases hnone

end Names

/-- Names that are made of spellable segments are identifiers. -/
theorem isLegalName_of_spellable {segments : List String}
    (h : ∀ segment ∈ segments, segment ≠ "" ∧ IsSpellable segment) {last : String}
    (hlast : last ≠ "" ∧ IsSpellable last) :
    IsLegalName ("TestCase" ++ className (sanitize last)) ∧
      ∀ part ∈ Text.pieces '.' (Text.joinWith "." (segments.map sanitize ++ [sanitize last ++ "_test"])),
        IsLegalName part := by
  have hstem := isLegalName_sanitize hlast.1 hlast.2
  have hparts : ∀ part ∈ segments.map sanitize ++ [sanitize last ++ "_test"], IsLegalName part := by
    rw [List.forall_mem_append, List.forall_mem_map, List.forall_mem_singleton]
    refine ⟨fun segment hsegment => ?_, hstem.append (by decide)⟩
    exact isLegalName_sanitize (h segment hsegment).1 (h segment hsegment).2
  constructor
  · refine IsLegalName.append (by decide) (List.all_eq_true.2 fun c hc => ?_)
    exact (mem_className hc).elim (List.all_eq_true.1 hstem.chars c) isWordChar_of_isLetterLike
  · rw [show "." = String.ofList ['.'] from rfl,
      Text.pieces_joinWith (by simp) fun part hpart => (hparts part hpart).notMem_dot]
    exact hparts

end Naming

/-- A part that begins with a dot leaves an empty piece. -/
theorem Text.empty_mem_pieces_joinWith {parts : List String} {part : String} (hpart : part ∈ parts)
    (hdot : part.toList.head? = some '.') : "" ∈ Text.pieces '.' (Text.joinWith "." parts) := by
  obtain ⟨rest, hrest⟩ := List.head?_eq_some_iff.1 hdot
  have hempty : "" ∈ Text.pieces '.' part := by
    rw [Text.pieces, hrest, Text.splitChars, if_pos rfl]
    exact List.mem_cons_self
  rw [show "." = String.ofList ['.'] from rfl, Text.pieces_joinWith_eq_flatMap (List.ne_nil_of_mem hpart)]
  exact List.mem_flatMap.2 ⟨part, hpart, hempty⟩

/-- **Names are identifiers.**  The class of a module and the parts of its dotted name are identifiers if the
path of its source lies below the root and can be spelled there.  A segment that begins with a dot stays as it
is, and makes a part of the dotted name empty. -/
theorem names_legal (root source : String) {below output : Path} {className dotted : String}
    (habsolute : (Path.ofString source).isAbsolute = true)
    (hplaced : Naming.placed (.ofString root) ({} : Settings).generatedSuffix (.ofString source)
      = .ok (output, className))
    (hmodule : Naming.moduleName (.ofString root) output = .ok dotted)
    (hbelow : Naming.relative (.ofString root) (Path.ofString source).withoutExtension = .ok below)
    (hne : below ≠ Path.empty) :
    ((∀ segment ∈ below.segments, Naming.IsSpellable segment) →
      IsLegalName ("TestCase" ++ className) ∧ ∀ part ∈ Text.pieces '.' dotted, IsLegalName part) ∧
    ((Path.ofString root).isAbsolute = true → (Path.ofString source).fileName? ≠ none →
      (∃ segment ∈ below.segments, segment.toList.head? = some '.') → "" ∈ Text.pieces '.' dotted) := by
  have hafter := Naming.relative_eq_ok_iff.1 hbelow
  have hplain := Path.isPlain_ofString source
  obtain ⟨front, last, hsegments⟩ : ∃ front last, below.segments = front ++ [last] := by
    refine (List.eq_nil_or_concat' below.segments).resolve_left fun hnil => hne ?_
    exact Path.eq_empty_of_after? hafter (List.map_eq_nil_iff.1 hnil)
  constructor
  · intro hspellable
    obtain ⟨hbase, hname⟩ := Naming.exists_fileName_of_spellable habsolute hafter hsegments hspellable
    obtain ⟨rfl, rfl⟩ := Naming.names_of_placed hbase hplain hname hafter hsegments hplaced hmodule
    have hall : ∀ segment ∈ front ++ [last], segment ≠ "" ∧ Naming.IsSpellable segment := by
      rw [← hsegments]
      intro segment hsegment
      have hfiller := Path.mem_segments_of_after? hbase hafter (Path.isPlain_withoutExtension hplain) hsegment
      exact ⟨(Path.isFiller_eq_false_iff.1 hfiller.1).1, hspellable segment hsegment⟩
    rw [List.forall_mem_append, List.forall_mem_singleton] at hall
    exact Naming.isLegalName_of_spellable hall.1 hall.2
  · rintro hroot hname ⟨segment, hsegment, hdot⟩
    have hbase : (Path.ofString root).components ≠ [] := by
      rw [Path.components, of_decide_eq_true hroot]
      exact List.cons_ne_nil _ _
    obtain ⟨-, rfl⟩ := Naming.names_of_placed hbase hplain hname hafter hsegments hplaced hmodule
    have hkept := Naming.sanitize_of_head_eq_dot hdot
    rw [hsegments, List.mem_append, List.mem_singleton] at hsegment
    rcases hsegment with hsegment | rfl
    · refine Text.empty_mem_pieces_joinWith (List.mem_append_left _ (List.mem_map_of_mem hsegment)) ?_
      rw [hkept, hdot]
    · refine Text.empty_mem_pieces_joinWith (List.mem_append_right _ List.mem_cons_self) ?_
      rw [hkept, String.toList_append, List.head?_append, hdot]
      rfl

/-- A path with blanks, dots, hyphens and a leading digit in its segments, and one through a directory whose name
begins with a dot. -/
theorem names_legal_spelled :
    let root := Path.ofString "/p"
    let output := Path.ofString "/p/T1_a/b_c_d_test.py"
    let hidden := Path.ofString "/p/.x/a_test.py"
    (Naming.placed root "_test.py" (.ofString "/p/1 a/b-c.d.json") = .ok (output, "BCD") ∧
      Naming.moduleName root output = .ok "T1_a.b_c_d_test" ∧
      IsLegalName "TestCaseBCD" ∧ ∀ part ∈ Text.pieces '.' "T1_a.b_c_d_test", IsLegalName part) ∧
    Naming.placed root "_test.py" (.ofString "/p/.x/a.json") = .ok (hidden, "A") ∧
      Naming.moduleName root hidden = .ok ".x.a_test" ∧ "" ∈ Text.pieces '.' ".x.a_test" := by
  intro root output hidden
  have hplaced : Naming.placed root "_test.py" (.ofString "/p/1 a/b-c.d.json") = .ok (output, "BCD") := by
    decide +kernel
  have hmodule : Naming.moduleName root output = .ok "T1_a.b_c_d_test" := by decide +kernel
  have hplaced' : Naming.placed root "_test.py" (.ofString "/p/.x/a.json") = .ok (hidden, "A") := by
    decide +kernel
  have hmodule' : Naming.moduleName root hidden = .ok ".x.a_test" := by decide +kernel
  have hlegal := (names_legal "/p" "/p/1 a/b-c.d.json" rfl hplaced hmodule rfl (by decide +kernel)).1
    (by decide +kernel)
  have hempty := (names_legal "/p" "/p/.x/a.json" rfl hplaced' hmodule' rfl (by decide +kernel)).2 rfl
    (by decide +kernel) ⟨".x", by decide +kernel, by decide +kernel⟩
  exact ⟨⟨hplaced, hmodule, hlegal⟩, hplaced', hmodule', hempty⟩

/-- Not all names that are taken from paths are identifiers. -/
theorem names_not_always_legal :
    ¬ ∀ (root source : String) (output : Path) (className dotted : String),
      (Path.ofString source).isAbsolute = true →
      Naming.placed (.ofString root) ({} : Settings).generatedSuffix (.ofString source) = .ok (output, className) →
      Naming.moduleName (.ofString root) output = .ok dotted →
      IsLegalName ("TestCase" ++ className) ∧ ∀ part ∈ Text.pieces '.' dotted, IsLegalName part := by
  intro h
  have hhidden := h "/p" "/p/.hidden/a.json" (.ofString "/p/.hidden/a_test.py") "A" ".hidden.a_test" rfl
    (by decide +kernel) (by decide +kernel)
  exact absurd (hhidden.2 "" (by decide +kernel)) (by decide +kernel)

end TestScribe
