/-
# From dotted names back to files

A module is imported by its dotted name: every part but the last names a directory below the root, and the last one
names the file, without its extension.  If no segment of the source below the root begins with a dot, no directory
and no stem on the way to its module has a dot, so the dotted name leads back to the module itself.

* `Naming.importedFile` : the file that a dotted name leads to;
* `Naming.NotHidden` : sources without a segment that begins with a dot below the root;
* `Naming.components_importedFile` : where a dotted name leads;
* `Naming.exists_directory` : the directory and the stem of a module have no dots;
* `dotted_name_leads_back` : dotted names lead back to the modules.
-/
import TestScribe.Proofs.Retidying

namespace TestScribe

namespace Text

theorem replaceChar_of_notMem {old : Char} {text : String} (h : old ∉ text.toList) (new : Char) :
    replaceChar old new text = text := by
  rw [replaceChar, ← String.toList_inj, String.toList_ofList]
  refine (List.map_congr_left fun c hc => ?_).trans (List.map_id _)
  rw [if_neg (ne_of_mem_of_not_mem hc h)]
  rfl

/-- Replacing the separator between parts leaves the parts as they are. -/
theorem replaceChar_joinWith {old : Char} {parts : List String} (h : ∀ part ∈ parts, old ∉ part.toList) (new : Char) :
    replaceChar old new (joinWith (String.ofList [old]) parts) = joinWith (String.ofList [new]) parts := by
  induction parts with
  | nil => simp [joinWith, replaceChar]
  | cons part rest ih =>
    rw [List.forall_mem_cons] at h
    cases rest with
    | nil => exact replaceChar_of_notMem h.1 new
    | cons next rest =>
      rw [joinWith, joinWith, replaceChar_append, replaceChar_append, replaceChar_of_notMem h.1 new, ih h.2]
      simp [replaceChar]

end Text

namespace Naming

open TestScribe.Path

/-! ## Where a dotted name leads -/

/-- The file that a dotted name leads to, from the root. -/
def importedFile (root : Path) (dotted : String) : Path :=
  root.join (.ofString (Text.replaceChar '.' '/' dotted ++ ".py"))

theorem exists_names_of_steps {front : List Component} (hfront : ∀ c ∈ front, IsStep c) (htop : .root ∉ front) :
    ∃ names : List String, front = names.map Component.name ∧ ∀ name ∈ names, IsName name ∧ '/' ∉ name.toList := by
  induction front with
  | nil => exact ⟨[], rfl, by simp⟩
  | cons c front ih =>
    rw [List.forall_mem_cons] at hfront
    rw [List.mem_cons, not_or] at htop
    obtain ⟨names, rfl, hnames⟩ := ih hfront.2 htop.2
    obtain ⟨s, rfl, hs⟩ := hfront.1.resolve_left (Ne.symm htop.1)
    exact ⟨s :: names, rfl, by simpa using ⟨hs, hnames⟩⟩

section ImportedFile

variable {names : List String} {file : String} (hnames : ∀ name ∈ names, IsName name ∧ '/' ∉ name.toList)
  (hfile : IsName file ∧ '/' ∉ file.toList)

include hnames hfile

/-- Names with separators between them write a path that starts nowhere, and behind a top segment one that starts at
the top. -/
theorem ofString_names :
    ofString (Text.joinWith "/" (names ++ [file])) = ⟨.none, names ++ [file]⟩ ∧
      ofString (Text.joinWith "/" ("/" :: (names ++ [file]))) = ⟨.root, "" :: (names ++ [file])⟩ := by
  have hall : ∀ name ∈ names ++ [file], IsName name ∧ '/' ∉ name.toList := by
    rw [List.forall_mem_append, List.forall_mem_singleton]
    exact ⟨hnames, hfile⟩
  have hnowhere : IsWritten ⟨.none, names ++ [file]⟩ :=
    ⟨fun name hname => (hall name hname).2, fun _ name hname => (hall name (List.mem_of_head? hname)).1.1⟩
  have htop : IsWritten ⟨.root, "" :: (names ++ [file])⟩ :=
    ⟨List.forall_mem_cons.2 ⟨by decide, fun name hname => (hall name hname).2⟩, nofun⟩
  have hend : EndsIn ⟨.root, "" :: (names ++ [file])⟩ file :=
    ⟨by rw [allPieces, ← List.cons_append]; exact List.getLast?_concat, hfile.1⟩
  refine ⟨hnowhere.ofString_text ⟨List.getLast?_concat, hfile.1⟩, ?_⟩
  obtain ⟨first, rest, hfirst⟩ := List.exists_cons_of_ne_nil (show names ++ [file] ≠ [] by simp)
  have htext : Text.joinWith "/" ("/" :: (names ++ [file])) = (Path.mk .root ("" :: (names ++ [file]))).text := by
    rw [text, hfirst]
    simp only [Text.joinWith, String.empty_append, String.append_assoc]
  rw [htext, htop.ofString_text hend]

end ImportedFile

/-- The dots between the parts of a dotted name become separators. -/
theorem importedFile_joinWith (root : Path) {front : List String} {last : String}
    (hdots : ∀ part ∈ front, '.' ∉ part.toList) (hlast : '.' ∉ last.toList) :
    importedFile root (Text.joinWith "." (front ++ [last]))
      = root.join (.ofString (Text.joinWith "/" (front ++ [last ++ ".py"]))) := by
  have hparts : ∀ part ∈ front ++ [last], '.' ∉ part.toList := by
    rw [List.forall_mem_append, List.forall_mem_singleton]
    exact ⟨hdots, hlast⟩
  rw [importedFile, show "." = String.ofList ['.'] from rfl, Text.replaceChar_joinWith hparts,
    Text.joinWith_concat_append]

/-- A dotted name leads to a directory for every part but the last, and to a file for the last one. -/
theorem components_importedFile {root : Path} (hroot : root.IsWritten) {front : List Component} {last : String}
    (hfront : ∀ c ∈ front, IsStep c) (htop : .root ∉ (root.components ++ front).tail)
    (hdots : ∀ c ∈ front, '.' ∉ c.text.toList) (hlast : '.' ∉ last.toList)
    (hfile : IsName (last ++ ".py") ∧ '/' ∉ (last ++ ".py").toList) :
    (importedFile root (Text.joinWith "." (front.map Component.text ++ [last]))).components
      = root.components ++ (front ++ [.name (last ++ ".py")]) := by
  rw [importedFile_joinWith root (List.forall_mem_map.2 hdots) hlast]
  have hnamed : ∀ names : List String, (∀ name ∈ names, IsName name ∧ '/' ∉ name.toList) →
      (names ++ [last ++ ".py"]).filterMap componentOf? = names.map Component.name ++ [.name (last ++ ".py")] := by
    intro names hnames
    rw [filterMap_names, List.map_append]
    · rfl
    · rw [List.forall_mem_append, List.forall_mem_singleton]
      exact ⟨fun name hname => (hnames name hname).1, hfile.1⟩
  by_cases hmem : .root ∈ front
  · -- the top can come behind the empty root only, and only as the first component
    have hnil : root.components = [] := by
      cases hcomponents : root.components with
      | nil => rfl
      | cons d ds => exact absurd (by simp [hcomponents, hmem]) htop
    obtain ⟨rest, rfl, hrest⟩ : ∃ rest, front = .root :: rest ∧ .root ∉ rest := by
      cases front with
      | nil => cases hmem
      | cons c rest =>
        rw [hnil, List.nil_append, List.tail_cons] at htop
        exact ⟨rest, by rw [(List.mem_cons.1 hmem).resolve_right htop], htop⟩
    rw [List.forall_mem_cons] at hfront
    obtain ⟨names, rfl, hnames⟩ := exists_names_of_steps hfront.2 hrest
    have hparts : (Component.root :: names.map Component.name).map Component.text ++ [last ++ ".py"]
        = "/" :: (names ++ [last ++ ".py"]) := by simp [Component.text, Function.comp_def]
    rw [hparts, (ofString_names hnames hfile).2, hroot.eq_empty hnil, empty_join, List.cons_append,
      ← hnamed names hnames]
    rfl
  · obtain ⟨names, rfl, hnames⟩ := exists_names_of_steps hfront hmem
    have hparts : (names.map Component.name).map Component.text ++ [last ++ ".py"] = names ++ [last ++ ".py"] := by
      simp [Component.text, Function.comp_def]
    rw [hparts, (ofString_names hnames hfile).1, ← hnamed names hnames]
    by_cases hroot : root = empty
    · rw [hroot, empty_join]
      rfl
    · exact components_join hroot rfl

/-! ## Sources that are not hidden -/

/-- No segment of a path below the root begins with a dot. -/
def NotHidden (root source : Path) : Prop :=
  ∀ below ∈ root.after? source, ∀ segment ∈ below.segments, segment.toList.head? ≠ some '.'

instance (root source : Path) : Decidable (NotHidden root source) :=
  inferInstanceAs (Decidable (∀ below ∈ root.after? source, ∀ segment ∈ below.segments, _ ≠ _))

section NotHidden

variable {root source below : Path} {name : String} (hdots : NotHidden root source)

theorem head_of_stem_eq_dot (hdot : (cutName name).1 = ".") : name.toList.head? = some '.' := by
  cases he : (cutName name).2 with
  | none =>
    rw [cutName_of_snd_eq_none he] at hdot
    rw [hdot]
    rfl
  | some e =>
    rw [eq_append_of_cutName he, hdot]
    simp

theorem head_cutName (hne : name ≠ "") : (cutName name).1.toList.head? = name.toList.head? := by
  cases he : (cutName name).2 with
  | none => rw [cutName_of_snd_eq_none he]
  | some e =>
    obtain ⟨c, cs, hcs⟩ := List.exists_cons_of_ne_nil (mt String.toList_eq_nil_iff.1 (cutName_fst_ne_empty hne))
    conv_rhs => rw [eq_append_of_cutName he]
    simp [hcs]

include hdots

theorem NotHidden.head_of_mem {rest : List Component} (hsource : source.components = root.components ++ rest)
    {c : Component} (hc : c ∈ rest) : c.text.toList.head? ≠ some '.' := by
  obtain ⟨below, hafter, hbelow⟩ := exists_after?_of_components_eq hsource
  refine hdots below hafter c.text ?_
  rw [segments, hbelow]
  exact List.mem_map_of_mem hc

/-- A file in a directory below the root has another stem than a dot. -/
theorem NotHidden.stem_ne_dot (hname : source.fileName? = some name)
    (hdirectory : root.components <+: source.components.dropLast) : (cutName name).1 ≠ "." := by
  obtain ⟨rest, hrest⟩ := hdirectory
  obtain ⟨-, before, -, hbefore⟩ := exists_trimEnd_of_fileName? hname
  intro hdot
  have hsource : source.components = root.components ++ (rest ++ [.name name]) := by
    rw [← List.append_assoc, hrest, hbefore, List.dropLast_concat]
  have hhead : name.toList.head? ≠ some '.' := hdots.head_of_mem hsource (c := .name name) (by simp)
  exact hhead (head_of_stem_eq_dot hdot)

/-- Neither does a segment begin with a dot when the extension is taken off. -/
theorem NotHidden.withoutExtension (hafter : root.after? source.withoutExtension = some below) :
    ∀ c ∈ below.components, c.text.toList.head? ≠ some '.' := by
  cases hname : source.fileName? with
  | none =>
    rw [Path.withoutExtension, hname] at hafter
    exact fun c => hdots.head_of_mem (components_of_after? hafter)
  | some name =>
    rcases List.eq_nil_or_concat' below.components with hnil | ⟨front, last, hbelow⟩
    · simp [hnil]
    · have hcomponents := components_of_after? hafter
      rw [hbelow, ← List.append_assoc] at hcomponents
      obtain ⟨bare, -, hbare⟩ := components_withoutExtension hname
      have hdirectory : root.components <+: source.components.dropLast := by
        rw [hcomponents] at hbare
        cases hc : componentOf? bare with
        | none =>
          rw [hc, Option.toList_none, List.append_nil] at hbare
          exact hbare ▸ (List.prefix_append _ _).trans (List.prefix_append _ _)
        | some c =>
          rw [hc, Option.toList_some] at hbare
          exact (List.append_inj' hbare rfl).1 ▸ List.prefix_append _ _
      obtain ⟨c, htext, hstem⟩ := exists_stem_withoutExtension hname (hdots.stem_ne_dot hname hdirectory)
      obtain ⟨hfront, hlast⟩ := List.append_inj' (hcomponents.symm.trans hstem) rfl
      obtain rfl := List.singleton_inj.1 hlast
      obtain ⟨hisName, before, -, hbefore⟩ := exists_trimEnd_of_fileName? hname
      have hsource : source.components = root.components ++ (front ++ [.name name]) := by
        rw [← List.append_assoc, hfront, hbefore, List.dropLast_concat]
      rw [hbelow, List.forall_mem_append, List.forall_mem_singleton]
      refine ⟨fun d hd => hdots.head_of_mem hsource (List.mem_append_left _ hd), ?_⟩
      rw [htext, head_cutName (isFiller_eq_false_iff.1 hisName.1).1]
      exact hdots.head_of_mem hsource (c := .name name) (by simp)

end NotHidden

/-! ## Directories and stems of modules -/

theorem stem_append_ne_bareName (name : String) : (cutName name).1 ++ "_test" ≠ bareName name := by
  rw [bareName]
  split
  · next stem e hcut =>
    rw [hcut]
    split
    · next hdot => simp [hdot]
    · simp
  · next stem hcut => simp [hcut]

/-- What does not begin with a dot is the top or a name. -/
theorem isStep_of_head {p : Path} (hp : p.IsPlain) {c : Component} (hc : c ∈ p.components)
    (hhead : c.text.toList.head? ≠ some '.') : IsStep c := by
  cases c with
  | root => exact .inl rfl
  | here => exact absurd rfl hhead
  | up => exact absurd rfl hhead
  | name s =>
    obtain ⟨hname, hpiece⟩ := isName_of_mem_components hc
    exact .inr ⟨s, rfl, hname, hp s hpiece⟩

section Directory

variable {root source below tidied : Path} (hplain : source.IsPlain)
  (hafter : root.after? source.withoutExtension = some below) (hdots : NotHidden root source)

include hplain hafter

/-- Below the root, a tidied source lies in sanitized directories and has a sanitized stem. -/
theorem exists_file_of_below {front : List Component} {s : String} (hbelow : below.components = front ++ [.name s])
    (hfront : ∀ c ∈ front, IsStep c) (hs : IsName s ∧ '/' ∉ s.toList) (htidied : tidy root root source = .ok tidied) :
    ∃ file, tidied.components = root.components ++ front.map (.mapName sanitize) ++ [.name file] ∧
      (cutName file).1 = sanitize s := by
  have hsource : source.withoutExtension.components = (root.components ++ front) ++ [.name s] := by
    rw [components_of_after? hafter, hbelow, List.append_assoc]
  obtain ⟨name, hname⟩ : ∃ name, source.fileName? = some name := by
    cases hnone : source.fileName? with
    | some name => exact ⟨name, rfl⟩
    | none =>
      rw [Path.withoutExtension, hnone] at hsource
      rw [fileName?_eq_some_iff.2 (by rw [hsource, List.getLast?_concat])] at hnone
      cases hnone
  have hsegments : below.segments = front.map Component.text ++ [s] := by
    rw [segments, hbelow, List.map_append]
    rfl
  obtain ⟨file, hfile, hisFile, hcut⟩ := exists_file_of_tidySegments hplain hname hafter hsegments ⟨hs.1.1, hs.2⟩
  rw [tidySegments_concat hbelow, List.map_map] at hfile
  rw [tidy_of_after? hafter hbelow, hfile] at htidied
  have htidied : ((front.map fun c => sanitize c.text) ++ [file]).foldl Path.child root = tidied :=
    Except.ok.inj htidied
  have hcomponents := components_foldl_file hfront (root_notMem_tail_of_components_eq hsource) hisFile.1 hisFile.2
  rw [htidied, ← List.append_assoc] at hcomponents
  exact ⟨file, hcomponents, hcut⟩

include hdots

/-- The top is tidied to itself. -/
theorem eq_top_of_tidy {front : List Component} (hbelow : below.components = front ++ [.root])
    (htidied : tidy root root source = .ok tidied) : root.components = [] ∧ tidied = ⟨.root, []⟩ := by
  have hcomponents : source.withoutExtension.components = (root.components ++ front) ++ [.root] := by
    rw [components_of_after? hafter, hbelow, List.append_assoc]
  obtain ⟨hroot, rfl⟩ := List.append_eq_nil_iff.1 (eq_nil_of_concat_root hcomponents)
  have hnone : source.fileName? = none := by
    rw [Option.eq_none_iff_forall_ne_some]
    intro name hname
    obtain ⟨c, htext, hstem⟩ :=
      exists_stem_withoutExtension hname (hdots.stem_ne_dot hname (hroot ▸ List.nil_prefix))
    obtain rfl := List.singleton_inj.1 (List.append_inj' (hcomponents.symm.trans hstem) rfl).2
    -- a stem has no separator
    exact notMem_of_fileName? hplain hname (mem_of_mem_cutName (htext ▸ by decide))
  have hextension : source.extension? = none := by rw [extension?, hnone]; rfl
  rw [tidy_of_after? hafter hbelow, hextension] at htidied
  refine ⟨hroot, (Except.ok.inj htidied).symm.trans ?_⟩
  show root.join (ofString (sanitize Component.root.text)) = _
  rw [show ofString (sanitize Component.root.text) = ⟨.root, []⟩ by decide]
  exact if_pos rfl

/-- If something comes below the root, the directory and the stem of the tidied source have no dots. -/
theorem exists_directory_of_below {front : List Component} {c : Component} (hbelow : below.components = front ++ [c])
    (htidied : tidy root root source = .ok tidied) :
    ∃ directories, tidied.components.dropLast = root.components ++ directories ∧
      (∀ d ∈ directories, '.' ∉ d.text.toList) ∧ '.' ∉ (tidied.stem?.getD "").toList := by
  have hheads := hdots.withoutExtension hafter
  have hsteps : ∀ c ∈ below.components, IsStep c := by
    intro c hc
    have hmem : c ∈ source.withoutExtension.components := components_of_after? hafter ▸ List.mem_append_right _ hc
    exact isStep_of_head (isPlain_withoutExtension hplain) hmem (hheads c hc)
  rw [hbelow, List.forall_mem_append, List.forall_mem_singleton] at hsteps hheads
  have hclean : ∀ t : String, t.toList.head? ≠ some '.' → '.' ∉ (sanitize t).toList := by
    intro t ht hmem
    exact absurd (isReplaced_of_mem_sanitize ht hmem) (by decide)
  rcases hsteps.2 with rfl | ⟨s, rfl, hs⟩
  · obtain ⟨hroot, rfl⟩ := eq_top_of_tidy hplain hafter hdots hbelow htidied
    exact ⟨[], by rw [hroot]; rfl, by simp, by decide⟩
  · obtain ⟨file, hcomponents, hcut⟩ := exists_file_of_below hplain hafter hbelow hsteps.1 hs htidied
    refine ⟨front.map (.mapName sanitize), by rw [hcomponents, List.dropLast_concat], ?_, ?_⟩
    · rw [List.forall_mem_map]
      intro d hd
      rcases hsteps.1 d hd with rfl | ⟨t, rfl, -, -⟩
      · decide
      · exact hclean t (hheads.1 _ hd)
    · rw [stem?, fileName?_eq_some_iff.2 (by rw [hcomponents, List.getLast?_concat])]
      show '.' ∉ (cutName file).1.toList
      rw [hcut]
      exact hclean s hheads.2

/-- If nothing comes below the root, the module lies below it only if the source is empty. -/
theorem eq_nil_of_nothing_below (hbelow : below.components = []) {below' : Path}
    (hmodule : root.after? (output source "_test.py").1.withoutExtension = some below') : source.components = [] := by
  have hroot : root.components = source.withoutExtension.components := by
    rw [components_of_after? hafter, hbelow, List.append_nil]
  have hcomponents := components_of_after? hmodule
  rw [(components_output rfl (notMem_stem hplain)).2, hroot] at hcomponents
  cases hname : source.fileName? with
  | none =>
    rw [Path.withoutExtension, hname] at hcomponents
    rcases List.eq_nil_or_concat' source.components with hnil | ⟨front, c, hsource⟩
    · exact hnil
    · rw [hsource, List.dropLast_concat, List.append_assoc] at hcomponents
      obtain ⟨rfl, -⟩ := List.cons.inj (List.append_cancel_left hcomponents)
      rw [fileName?_eq_some_iff.2 (by rw [hsource, List.getLast?_concat])] at hname
      cases hname
  | some name =>
    exfalso
    obtain ⟨bare, hbare, hwithout⟩ := components_withoutExtension hname
    cases hc : componentOf? bare with
    | none =>
      rw [hc, Option.toList_none, List.append_nil] at hwithout
      have hdirectory : root.components <+: source.components.dropLast := by rw [hroot, hwithout]
      obtain ⟨c, -, hstem⟩ := exists_stem_withoutExtension hname (hdots.stem_ne_dot hname hdirectory)
      simp [hstem] at hwithout
    | some c =>
      rw [hwithout, hc, Option.toList_some, List.append_assoc] at hcomponents
      obtain ⟨rfl, -⟩ := List.cons.inj (List.append_cancel_left hcomponents)
      have hstem : source.stem?.getD "" = (cutName name).1 := by rw [stem?, hname]; rfl
      have htext : (cutName name).1 ++ "_test" = bare := hstem ▸ text_of_componentOf? hc
      rcases hbare with rfl | rfl
      · exact stem_append_ne_bareName name htext
      · simp at htext

/-- The directory of a module below the root and the stem of its source have no dots. -/
theorem exists_directory (htidied : tidy root root source = .ok tidied) {below' : Path}
    (hmodule : root.after? (output tidied "_test.py").1.withoutExtension = some below') :
    ∃ directories, tidied.components.dropLast = root.components ++ directories ∧
      (∀ d ∈ directories, '.' ∉ d.text.toList) ∧ '.' ∉ (tidied.stem?.getD "").toList := by
  rcases List.eq_nil_or_concat' below.components with hnil | ⟨front, c, hbelow⟩
  · rw [tidy, relative_eq_ok_iff.2 hafter, eq_empty_of_after? hafter hnil] at htidied
    obtain rfl := Except.ok.inj htidied
    have hsource := eq_nil_of_nothing_below hplain hafter hdots hnil hmodule
    have hroot : root.components = [] := by
      have hlength := source.length_withoutExtension_le
      rw [components_of_after? hafter, hsource, List.length_append, List.length_nil] at hlength
      exact List.length_eq_zero_iff.1 (by omega)
    have hstem : source.stem? = none := by rw [stem?, fileName?, hsource]; rfl
    exact ⟨[], by rw [hsource, hroot]; rfl, by simp, by simp [hstem]⟩
  · exact exists_directory_of_below hplain hafter hdots hbelow htidied

end Directory

/-- The dotted name of a module whose source is not hidden leads back to the module. -/
theorem same_importedFile {root source output : Path} {className dotted : String} (hroot : root.IsWritten)
    (hplain : source.IsPlain) (hdots : NotHidden root source)
    (hplaced : placed root "_test.py" source = .ok (output, className))
    (hmodule : moduleName root output = .ok dotted) :
    (importedFile root dotted).same output = true := by
  obtain ⟨tidied, htidied, hout⟩ := map_eq_ok.1 hplaced
  obtain ⟨below, hbelow, -⟩ := bind_eq_ok.1 htidied
  obtain ⟨below', hbelow', rfl⟩ := map_eq_ok.1 hmodule
  rw [relative_eq_ok_iff] at hbelow hbelow'
  obtain rfl : (Naming.output tidied "_test.py").1 = output := congrArg Prod.fst hout
  obtain ⟨directories, hdirectory, hclean, hstem⟩ := exists_directory hplain hbelow hdots htidied hbelow'
  have htidiedPlain : tidied.IsPlain := isPlain_tidy hroot.1 hplain htidied
  have hsteps : ∀ d ∈ directories, IsStep d := by
    intro d hd
    have hmem : d ∈ tidied.components := List.dropLast_subset _ (hdirectory ▸ List.mem_append_right _ hd)
    exact isStep_of_head htidiedPlain hmem fun hhead => hclean d hd (List.mem_of_head? hhead)
  generalize hstemEq : tidied.stem?.getD "" = stem at hstem
  have hslash : '/' ∉ stem.toList := hstemEq ▸ notMem_stem htidiedPlain
  obtain ⟨hcomponents, hwithout⟩ := components_output hstemEq hslash
  rw [hdirectory] at hcomponents hwithout
  have hbelow' : below'.components = directories ++ [.name (stem ++ "_test")] := by
    rw [components_of_after? hbelow', List.append_assoc] at hwithout
    exact List.append_cancel_left hwithout
  have hfile : stem ++ "_test" ++ ".py" = stem ++ "_test.py" := String.append_assoc
  have hlast : '.' ∉ (stem ++ "_test").toList := by simp [hstem]
  have himported := components_importedFile hroot hsteps (root_notMem_tail_of_components_eq hcomponents) hclean hlast
    (hfile ▸ ⟨isName_append ⟨'_', by decide, by decide⟩ _, by simp [hslash]⟩)
  rw [same_iff, hcomponents, segments, hbelow', List.map_append, List.append_assoc, ← hfile]
  exact himported

end Naming

/-- Let the module that is made below a root for a source, none of whose segments there begins with a dot, be imported
by a dotted name.  The dotted name leads back to the module from the root.  Hence every other such source whose module
is imported by the same dotted name has the same module. -/
theorem dotted_name_leads_back (root source : String) {output : Path} {className dotted : String}
    (hdots : Naming.NotHidden (.ofString root) (.ofString source))
    (hplaced : Naming.placed (.ofString root) "_test.py" (.ofString source) = .ok (output, className))
    (hmodule : Naming.moduleName (.ofString root) output = .ok dotted) :
    (Naming.importedFile (.ofString root) dotted).same output = true ∧
      ∀ (source' : String) (output' : Path) (className' : String),
        Naming.NotHidden (.ofString root) (.ofString source') →
        Naming.placed (.ofString root) "_test.py" (.ofString source') = .ok (output', className') →
        Naming.moduleName (.ofString root) output' = .ok dotted → output'.same output = true := by
  have hroot := Path.isWritten_ofString root
  have hback := Naming.same_importedFile hroot (Path.isPlain_ofString source) hdots hplaced hmodule
  refine ⟨hback, ?_⟩
  intro source' output' className' hdots' hplaced' hmodule'
  have hback' := Naming.same_importedFile hroot (Path.isPlain_ofString source') hdots' hplaced' hmodule'
  rw [Path.same_iff] at hback hback' ⊢
  exact hback'.symm.trans hback

/-- Two sources with the same module, and a hidden one whose dotted name leads elsewhere. -/
theorem dotted_name_leads_back_examples :
    let root := Path.ofString "/p"
    let output := Path.ofString "/p/T1_a/b_c_d_test.py"
    (Naming.placed root "_test.py" (.ofString "/p/1 a/b-c.d.json") = .ok (output, "BCD") ∧
      Naming.placed root "_test.py" (.ofString "/p//1.a/./b c.d.YML/") = .ok (output, "BCD") ∧
      Naming.moduleName root output = .ok "T1_a.b_c_d_test" ∧
      (Naming.importedFile root "T1_a.b_c_d_test").same output = true ∧ output.same output = true) ∧
    ¬ Naming.NotHidden root (.ofString "/p/.x/a.json") ∧
      Naming.moduleName root (.ofString "/p/.x/a_test.py") = .ok ".x.a_test" ∧
      (Naming.importedFile root ".x.a_test").same (.ofString "/p/.x/a_test.py") = false := by
  intro root output
  have hplaced : Naming.placed root "_test.py" (.ofString "/p/1 a/b-c.d.json") = .ok (output, "BCD") := by
    decide +kernel
  have hplaced' : Naming.placed root "_test.py" (.ofString "/p//1.a/./b c.d.YML/") = .ok (output, "BCD") := by
    decide +kernel
  have hmodule : Naming.moduleName root output = .ok "T1_a.b_c_d_test" := by decide +kernel
  obtain ⟨hback, hsame⟩ := dotted_name_leads_back "/p" "/p/1 a/b-c.d.json" (by decide +kernel) hplaced hmodule
  have hsame' := hsame "/p//1.a/./b c.d.YML/" output "BCD" (by decide +kernel) hplaced' hmodule
  exact ⟨⟨hplaced, hplaced', hmodule, hback, hsame'⟩, by decide +kernel⟩

end TestScribe
