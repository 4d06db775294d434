/-
# From a module to the project root

A module with imports climbs from its own path to the project root, as many levels as its source lies below
the root.  Next to its source it arrives there, since tidying a path keeps its depth.  In an output directory
it arrives there only if the directory is as deep below the root as that of the source.

* `Path.up` : one level up, where the top is its own parent;
* `Path.LiesBelow`, `Path.iterate_up_same_iff` : a path from which the root is so many levels up;
* `Naming.exists_names_of_tidy` : a tidied source is as deep below the root as the source;
* `climb_reaches_root` : which modules arrive at the root.
-/
import TestScribe.Proofs.Once
import TestScribe.Proofs.Records

namespace TestScribe

/-! ## Levels -/

namespace Path

/-- One level up; the top of the file tree and the empty path stay where they are. -/
def up (p : Path) : Path := p.parent?.getD p

/-- The components of the empty path, and of the top of the file tree. -/
def tops : List (List Component) := [[], [.root]]

theorem concat_mem_tops {front : List Component} {last : Component} :
    front ++ [last] ∈ tops ↔ front = [] ∧ last = .root := by
  simp [tops, List.append_eq_cons_iff]

/-- The last component is the top only if it is the only one. -/
theorem eq_nil_of_concat_root {p : Path} {front : List Component} (h : p.components = front ++ [.root]) :
    front = [] := by
  cases front with
  | nil => rfl
  | cons c front => exact absurd (by rw [h]; simp) p.root_notMem_tail

theorem components_up (p : Path) :
    p.up.components = if p.components ∈ tops then p.components else p.components.dropLast := by
  have hparent : p.parent? = none ↔ p.components ∈ tops := by
    rcases List.eq_nil_or_concat' p.components with hnil | ⟨front, last, hlast⟩
    · simp [parent?, hnil, tops]
    · rw [parent?, hlast, List.getLast?_concat, concat_mem_tops]
      cases last with
      | root => simp [eq_nil_of_concat_root hlast]
      | here => simp
      | up => simp
      | name s => simp
  rw [up]
  cases h : p.parent? with
  | none =>
    rw [if_pos (hparent.1 h)]
    rfl
  | some q =>
    have htop : p.components ∉ tops := fun htop => by simp [hparent.2 htop] at h
    rw [if_neg htop, ← components_parent, parent, h]
    rfl

/-- A path lies so many levels below another one.  Climbing stops at the top, so the top lies above a path at
any greater number of levels as well. -/
def LiesBelow (root p : Path) (levels : Nat) : Prop :=
  ∃ rest, p.components = root.components ++ rest ∧ .root ∉ rest ∧
    (rest.length = levels ∨ root.components ∈ tops ∧ rest.length ≤ levels)

/-- Climbing from a path leads to the paths above it. -/
theorem iterate_up_same_iff (root : Path) (levels : Nat) (p : Path) :
    (up^[levels] p).same root = true ↔ root.LiesBelow p levels := by
  induction levels generalizing p with
  | zero =>
    rw [Function.iterate_zero, id, same_iff]
    constructor
    · exact fun h => ⟨[], by rw [h, List.append_nil], List.not_mem_nil, .inl rfl⟩
    · rintro ⟨rest, hrest, -, hlength⟩
      have hnil : rest = [] := List.length_eq_zero_iff.1 (by omega)
      rw [hrest, hnil, List.append_nil]
  | succ levels ih =>
    rw [Function.iterate_succ_apply, ih, LiesBelow, LiesBelow, components_up]
    split
    · -- at the top, nothing is left to climb
      next htop =>
      have hrest : ∀ rest, p.components = root.components ++ rest → .root ∉ rest →
          rest = [] ∧ root.components ∈ tops := by
        intro rest hrest hroot
        simp only [tops, List.mem_cons, List.not_mem_nil, or_false] at htop
        rcases htop with htop | htop
        · rw [htop, List.nil_eq_append_iff] at hrest
          exact ⟨hrest.2, by rw [hrest.1]; decide⟩
        · rw [htop, List.singleton_eq_append_iff] at hrest
          rcases hrest with ⟨-, rfl⟩ | ⟨hrest, rfl⟩
          · exact absurd List.mem_cons_self hroot
          · exact ⟨rfl, by rw [hrest]; decide⟩
      refine exists_congr fun rest => and_congr_right fun heq => and_congr_right fun hroot => ?_
      obtain ⟨rfl, htops⟩ := hrest rest heq hroot
      simp [htops]
    · next htop =>
      obtain ⟨front, last, hlast⟩ := (List.eq_nil_or_concat' p.components).resolve_left
        fun hnil => htop (by rw [hnil]; decide)
      rw [hlast, concat_mem_tops] at htop
      rw [hlast, List.dropLast_concat]
      constructor
      · rintro ⟨rest, rfl, hroot, hlength⟩
        refine ⟨rest ++ [last], List.append_assoc _ _ _, ?_, ?_⟩
        · intro hmem
          rcases List.mem_append.1 hmem with hmem | hmem
          · exact hroot hmem
          · obtain rfl := List.mem_singleton.1 hmem
            exact htop ⟨eq_nil_of_concat_root hlast, rfl⟩
        · rw [List.length_append, List.length_singleton]
          exact hlength.imp (fun h => by omega) fun h => ⟨h.1, by omega⟩
      · rintro ⟨rest, hrest, hroot, hlength⟩
        rcases List.eq_nil_or_concat' rest with rfl | ⟨rest, last', rfl⟩
        · rw [← hrest.trans (List.append_nil _), concat_mem_tops] at hlength
          simp at hlength
          exact absurd hlength htop
        · rw [← List.append_assoc] at hrest
          refine ⟨rest, (List.append_inj' hrest rfl).1, fun hmem => hroot (List.mem_append_left _ hmem), ?_⟩
          rw [List.length_append, List.length_singleton] at hlength
          exact hlength.imp (fun h => by omega) fun h => ⟨h.1, by omega⟩

theorem liesBelow_succ_iff {root p q : Path} {name : String}
    (h : p.components = q.components ++ [.name name]) (levels : Nat) :
    root.LiesBelow p (levels + 1) ↔ root.LiesBelow q levels := by
  have hup : p.up.components = q.components := by
    rw [components_up, h, if_neg fun htop => by simp [concat_mem_tops] at htop, List.dropLast_concat]
  rw [← iterate_up_same_iff, Function.iterate_succ_apply, iterate_up_same_iff, LiesBelow, hup, LiesBelow]

end Path

/-! ## Depth of a tidied path -/

namespace Naming

open TestScribe.Path

/-- A sanitized piece stands for something if the piece does. -/
theorem isFiller_sanitize {piece : String} (h : isFiller piece = false) : isFiller (sanitize piece) = false := by
  rcases sanitize_cases piece with hsame | hdot
  · rwa [hsame]
  · refine isFiller_eq_false_iff.2 ⟨sanitize_ne_empty (isFiller_eq_false_iff.1 h).1, ?_⟩
    intro heq
    exact hdot (by rw [heq]; decide)

theorem isName_sanitize {name : String} (h : IsName name) : IsName (sanitize name) := by
  refine ⟨isFiller_sanitize h.1, ?_⟩
  rcases sanitize_cases name with hsame | hdot
  · rw [hsame]
    exact h.2
  · intro heq
    exact hdot (by rw [heq]; decide)

theorem components_foldl_child {segments : List String}
    (h : ∀ segment ∈ segments, isFiller segment = false ∧ '/' ∉ segment.toList) (root : Path) :
    (segments.foldl Path.child root).components = root.components ++ segments.filterMap componentOf? := by
  induction segments generalizing root with
  | nil => simp
  | cons segment rest ih =>
    obtain ⟨hfiller, hplain⟩ := h segment List.mem_cons_self
    obtain ⟨hne, hdot⟩ := isFiller_eq_false_iff.1 hfiller
    rw [List.foldl_cons, ih fun s hs => h s (List.mem_cons_of_mem _ hs), components_child hplain hne hdot,
      List.append_assoc]
    cases hc : componentOf? segment <;> simp [hc]

/-- A tidied source is as deep below the root as the source. -/
theorem exists_names_of_tidy {root source tidied : Path} (hsource : source.IsPlain)
    (hnormal : source.normalize = source) {names : List String} (hne : names ≠ [])
    (hbelow : source.components = root.components ++ names.map Component.name)
    (h : tidy root root source = .ok tidied) :
    ∃ names' : List String, tidied.components = root.components ++ names'.map Component.name ∧
      names'.length = names.length := by
  obtain ⟨front, name, rfl⟩ := (List.eq_nil_or_concat' names).resolve_left hne
  rw [List.map_append, ← List.append_assoc] at hbelow
  have hname : source.fileName? = some name := fileName?_eq_some_iff.2 (by rw [hbelow]; simp)
  have hend := endsIn_of_normal hnormal hname
  -- without its extension, the source still has a component in place of its name
  obtain ⟨c, hc, hcomponents⟩ : ∃ c, componentOf? (bareName name) = some c ∧
      source.withoutExtension.components = root.components ++ (front.map Component.name ++ [c]) := by
    rw [hend.components_withoutExtension, hbelow]
    cases hc : componentOf? (bareName name) with
    | none =>
      rw [componentOf?_eq_none_iff, isFiller_bareName hend.2] at hc
      exact absurd hc Bool.false_ne_true
    | some c => exact ⟨c, rfl, by simp⟩
  obtain ⟨below, hafter, h⟩ := bind_eq_ok.1 h
  rw [relative_eq_ok_iff] at hafter
  have hcs : below.components = front.map Component.name ++ [c] := by
    rw [components_of_after? hafter] at hcomponents
    exact List.append_cancel_left hcomponents
  have hempty : below ≠ empty := by
    rintro rfl
    exact absurd hcs (by simp [components, empty, Anchor.components])
  rw [if_neg hempty] at h
  cases h
  have hsegments : tidySegments below source.extension? = front.map sanitize ++ [tidyName name] := by
    rw [tidySegments_eq hnormal hname hafter hempty, hcs, List.dropLast_concat, List.map_map]
    rfl
  refine ⟨front.map sanitize ++ [tidyName name], ?_, by simp⟩
  have hnames : ∀ segment ∈ front.map sanitize ++ [tidyName name], IsName segment ∧ '/' ∉ segment.toList := by
    intro segment hsegment
    rcases List.mem_append.1 hsegment with hsegment | hsegment
    · obtain ⟨n, hn, rfl⟩ := List.mem_map.1 hsegment
      have hmem : .name n ∈ source.components := by
        rw [hbelow]
        simp [hn]
      obtain ⟨hisName, hpiece⟩ := isName_of_mem_components hmem
      exact ⟨isName_sanitize hisName, notMem_sanitize (hsource n hpiece)⟩
    · obtain rfl := List.mem_singleton.1 hsegment
      exact ⟨(isName_tidyName hend.2).1, notMem_tidyName (notMem_of_fileName? hsource hname)⟩
  rw [hsegments, components_foldl_child (fun segment h => ⟨(hnames segment h).1.1, (hnames segment h).2⟩),
    filterMap_names fun segment h => (hnames segment h).1]

theorem isPlain_placed {root source p : Path} {suffix className : String} (hroot : root.IsPlain)
    (hsource : source.IsPlain) (h : placed root suffix source = .ok (p, className)) : p.IsPlain := by
  obtain ⟨tidied, htidied, heq⟩ := map_eq_ok.1 h
  cases heq
  exact isPlain_child (isPlain_parent (isPlain_tidy hroot hsource htidied)) _

/-- A module that is made next to its source is as deep below the root as the source. -/
theorem exists_names_of_placed {root source p : Path} {suffix className name : String} (hroot : root.IsPlain)
    (hsuffix : '/' ∉ suffix.toList) (hsource : source.IsPlain) (hnormal : source.normalize = source)
    {names : List String} (hne : names ≠ [])
    (hbelow : source.components = root.components ++ names.map Component.name)
    (h : placed root suffix source = .ok (p, className)) (hend : p.EndsIn name) :
    ∃ names' : List String, p.components = root.components ++ names'.map Component.name ∧
      names'.length = names.length := by
  obtain ⟨tidied, htidied, heq⟩ := map_eq_ok.1 h
  cases heq
  obtain ⟨names', hnames', hlength⟩ := exists_names_of_tidy hsource hnormal hne hbelow htidied
  have hne' : names' ≠ [] := by
    rintro rfl
    exact hne (List.length_eq_zero_iff.1 hlength.symm)
  obtain ⟨front, last, rfl⟩ := (List.eq_nil_or_concat' names').resolve_left hne'
  have hplain : '/' ∉ (tidied.stem?.getD "" ++ suffix).toList := by
    rw [String.toList_append, List.mem_append]
    exact fun h => h.elim (notMem_stem (isPlain_tidy hroot hsource htidied)) hsuffix
  have hname : name = tidied.stem?.getD "" ++ suffix := hend.of_child hplain
  obtain ⟨hfiller, hdot⟩ := isFiller_eq_false_iff.1 hend.2.1
  rw [hname] at hfiller hdot hend
  refine ⟨front ++ [tidied.stem?.getD "" ++ suffix], ?_, by simpa using hlength⟩
  rw [components_child hplain hfiller hdot, componentOf?_of_name hend.2.1 hend.2.2, components_parent, hnames',
    List.map_append, ← List.append_assoc]
  simp

/-- A module in an output directory lies right below it. -/
theorem components_of_placedIn {root source directory p : Path} {suffix className name : String}
    (hroot : root.IsPlain) (hsource : source.IsPlain)
    (h : placedIn root suffix source (some directory) = .ok (p, className)) (hend : p.EndsIn name) :
    ∃ file, p.components = directory.components ++ [.name file] := by
  obtain ⟨⟨beside, className'⟩, hbeside, hout⟩ := map_eq_ok.1 h
  dsimp only at hout
  cases hname : beside.fileName? with
  | none =>
    rw [hname] at hout
    cases hout
    rw [hend.fileName?_eq] at hname
    cases hname
  | some file =>
    rw [hname] at hout
    cases hout
    have hplain : '/' ∉ file.toList := notMem_of_fileName? (isPlain_placed hroot hsource hbeside) hname
    have hisName := (exists_trimEnd_of_fileName? hname).1
    obtain ⟨hne, hdot⟩ := isFiller_eq_false_iff.1 hisName.1
    refine ⟨file, ?_⟩
    rw [components_child hplain hne hdot, componentOf?_of_name hisName.1 hisName.2]
    rfl

end Naming

/-! ## Modules -/

/-- **Which modules arrive at the root.**  After any orders, a module whose source lies below the root and
calls testcases climbs as many levels as its source lies below the root.  It arrives at the root if it was
made next to its source; if it was made in an output directory, this is so if and only if the directory is as
deep below the root as that of the source. -/
theorem climb_reaches_root (settings : Settings) (root : String) (disk : Disk)
    (hsuffix : '/' ∉ settings.generatedSuffix.toList) (orders : List Order) :
    ∀ r ∈ (Chronicle.after ⟨.fresh settings root disk, []⟩ orders).log, ∀ names : List String, names ≠ [] →
      r.source.components = (Path.ofString root).components ++ names.map Component.name →
      (∃ step ∈ r.testcase.steps, ∃ raw, step.action = .call (.path raw)) →
      r.script.imports = ("import sys\nfrom pathlib import Path\nsys.path.insert(0, str(Path(__file__)"
          ++ String.join (List.replicate names.length ".parent") ++ "))\n") ::
        (r.imports.map fun i => "from " ++ i.moduleName ++ " import TestCase" ++ i.className ++ " as " ++ i.localName) ∧
      ∃ outputDirectory, Sent orders r.source outputDirectory ∧
        Naming.placedIn (.ofString root) settings.generatedSuffix r.source outputDirectory
          = .ok (r.output, r.className) ∧
        ((Path.up^[names.length] r.output).same (.ofString root) = true ↔
          ∀ directory, outputDirectory = some directory →
            (Path.ofString root).LiesBelow directory (names.length - 1)) := by
  intro r hr names hne hsource hcalls
  have horigin := (logged_after settings (.fixed (.ofString root)) disk orders).origins r hr
  have hroot := Path.isPlain_ofString root
  constructor
  · -- the levels are those of the source
    obtain ⟨steps, below, hresolves, hscript, hbelow⟩ := horigin.written
    obtain ⟨step, hstep, raw, haction⟩ := hcalls
    have hlevels : below.components.length = names.length := by
      have hafter := Path.components_of_after? (Naming.relative_eq_ok_iff.1 (hbelow _ rfl))
      rw [hsource] at hafter
      rw [← List.append_cancel_left hafter, List.length_map]
    have himports : r.imports.isEmpty = false := by
      simpa using hresolves.ne_nil hstep haction
    have hpositive : names.length ≠ 0 := fun h => hne (List.length_eq_zero_iff.1 h)
    rw [(Make.script_fields hscript).1, hlevels, Make.importLines, himports, Bool.false_or,
      if_neg (by simpa using hpositive)]
    rfl
  · obtain ⟨outputDirectory, hsent, hplaced⟩ := horigin.placed
    obtain ⟨name, hend⟩ := horigin.endsIn
    refine ⟨outputDirectory, hsent, hplaced _ rfl, ?_⟩
    rw [Path.iterate_up_same_iff]
    have hplain := horigin.plain _ rfl hroot
    cases outputDirectory with
    | none =>
      have hbeside := hplaced _ rfl
      rw [Naming.placedIn_none] at hbeside
      obtain ⟨names', hnames', hlength⟩ := Naming.exists_names_of_placed hroot hsuffix hplain horigin.normal
        hne hsource hbeside hend
      refine iff_of_true ⟨names'.map Component.name, hnames', by simp, .inl ?_⟩ nofun
      rw [List.length_map, hlength]
    | some directory =>
      obtain ⟨file, hfile⟩ := Naming.components_of_placedIn hroot hplain (hplaced _ rfl) hend
      obtain ⟨levels, hlevels⟩ := Nat.exists_eq_succ_of_ne_zero
        fun h : names.length = 0 => hne (List.length_eq_zero_iff.1 h)
      rw [hlevels, Path.liesBelow_succ_iff hfile]
      simp

/-- A module in a directory that is as deep as that of its source, and one that is deeper. -/
theorem climb_reaches_root_directories :
    let orders : List Order := [⟨caller "b.json", "/p/x/a.json", some "/p/out"⟩,
      ⟨caller "b.json", "/p/x/a.json", some "/p/out/deep"⟩]
    let c := Chronicle.after ⟨.fresh {} "/p" oneTestcase, []⟩ orders
    '/' ∉ ({} : Settings).generatedSuffix.toList ∧
      c.log.map (fun r => (r.output, (Path.up^[2] r.output).same (.ofString "/p"))) =
        [(⟨.root, ["p", "b_test.py"]⟩, false), (⟨.root, ["p", "out", "a_test.py"]⟩, true),
          (⟨.root, ["p", "out", "deep", "a_test.py"]⟩, false)] ∧
      ∃ r ∈ c.log, r.output = ⟨.root, ["p", "out", "deep", "a_test.py"]⟩ ∧
        r.script.imports = [
          "import sys\nfrom pathlib import Path\nsys.path.insert(0, str(Path(__file__).parent.parent))\n",
          "from b_test import TestCaseB as B"] ∧
        ∃ outputDirectory, Sent orders r.source outputDirectory ∧
          Naming.placedIn (.ofString "/p") "_test.py" r.source outputDirectory
            = .ok (r.output, r.className) ∧
          ((Path.up^[2] r.output).same (.ofString "/p") = true ↔
            ∀ directory, outputDirectory = some directory → (Path.ofString "/p").LiesBelow directory 1) := by
  intro orders c
  have hrecord : c.log.any (fun r => r.output = ⟨.root, ["p", "out", "deep", "a_test.py"]⟩ &&
      r.source = ⟨.root, ["p", "x", "a.json"]⟩ && r.imports = [⟨"b_test", "B", "B"⟩] &&
      r.testcase.steps.any fun step => step.action = .call (.path "b.json")) = true := by
    decide +kernel
  obtain ⟨r, hr, hrecord⟩ := List.any_eq_true.1 hrecord
  simp only [Bool.and_eq_true, decide_eq_true_eq, List.any_eq_true] at hrecord
  obtain ⟨⟨⟨houtput, hsource⟩, himports⟩, step, hstep, haction⟩ := hrecord
  obtain ⟨hlines, hplaced⟩ := climb_reaches_root {} "/p" oneTestcase (by decide) orders r hr ["x", "a.json"]
    (by decide) (by rw [hsource]; decide +kernel) ⟨step, hstep, "b.json", haction⟩
  rw [himports] at hlines
  exact ⟨by decide, by decide +kernel, r, hr, houtput, hlines, hplaced⟩

/-- A module in an output directory climbs to a place that is not the root. -/
theorem climb_misses_root :
    let c := Chronicle.after ⟨.fresh {} "/p" oneTestcase, []⟩ [⟨caller "b.json", "/p/a.json", some "/p/out/deep"⟩]
    ∃ r ∈ c.log, r.source.components = (Path.ofString "/p").components ++ [.name "a.json"] ∧
      (∃ step ∈ r.testcase.steps, ∃ raw, step.action = .call (.path raw)) ∧
      r.script.imports = [
        "import sys\nfrom pathlib import Path\nsys.path.insert(0, str(Path(__file__).parent))\n",
        "from b_test import TestCaseB as B"] ∧
      (Path.up^[1] r.output).same (.ofString "/p") = false := by
  intro c
  have hrecord : c.log.any (fun r =>
      r.source.components = (Path.ofString "/p").components ++ [.name "a.json"] &&
      (r.testcase.steps.any fun step => step.action = .call (.path "b.json")) &&
      r.script.imports = [
        "import sys\nfrom pathlib import Path\nsys.path.insert(0, str(Path(__file__).parent))\n",
        "from b_test import TestCaseB as B"] &&
      !(Path.up^[1] r.output).same (.ofString "/p")) = true := by
    decide +kernel
  obtain ⟨r, hr, hrecord⟩ := List.any_eq_true.1 hrecord
  simp only [Bool.and_eq_true, decide_eq_true_eq, List.any_eq_true, Bool.not_eq_true'] at hrecord
  obtain ⟨⟨⟨hsource, step, hstep, haction⟩, himports⟩, hmisses⟩ := hrecord
  exact ⟨r, hr, hsource, ⟨step, hstep, "b.json", haction⟩, himports, hmisses⟩

end TestScribe
