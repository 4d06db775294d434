/-
# Tidied paths stay in place

A path below the root is tidied to one that lies as deep below it: every directory on the way is sanitized, and so is
the stem of the file, behind which the extension stands in lower case.  The extension is taken off before the path is
compared with the root, and put back at the end.  So there are two exceptions.  A path next to the root that has the
name of the root and an extension is left as it is, although it lies outside; and a name whose stem is a single dot
does not come back.

* `Naming.tidyFile`, `Naming.InPlace` : a tidied file name, and a path in place of another one;
* `Naming.exists_tidied_of_below` : paths below the root are tidied in place;
* `Naming.tidy_of_not_below` : paths outside the root are refused, or are left as they are;
* `tidied_stays_in_place` : which paths stay in place.
-/
import TestScribe.Proofs.Climbing

namespace TestScribe

/-- A component with another name, if it is one. -/
def Component.mapName (f : String → String) : Component → Component
  | .name s => .name (f s)
  | .root => .root
  | .here => .here
  | .up => .up

namespace Path

/-- The top, or a name without separators. -/
def IsStep (c : Component) : Prop := c = .root ∨ ∃ s, c = .name s ∧ IsName s ∧ '/' ∉ s.toList

/-- A path from the top without `..` is made of names. -/
theorem isStep_of_mem_components {p : Path} (hplain : p.IsPlain) (habsolute : p.isAbsolute = true)
    (hup : .up ∉ p.components) : ∀ c ∈ p.components, IsStep c := by
  intro c hc
  cases c with
  | root => exact .inl rfl
  | up => exact absurd hc hup
  | name s => exact .inr ⟨s, rfl, (isName_of_mem_components hc).1, hplain s (isName_of_mem_components hc).2⟩
  | here =>
    rw [components, of_decide_eq_true habsolute, List.mem_append] at hc
    rcases hc with hc | hc
    · cases List.mem_singleton.1 hc
    · obtain ⟨piece, -, hpiece⟩ := List.mem_filterMap.1 hc
      rcases (componentOf?_cases hpiece).2 with ⟨-, h⟩ | ⟨-, h⟩ <;> cases h

/-! ## Without the extension -/

/-- Unless its stem is a single dot, a file name gives way to its stem. -/
theorem exists_stem_withoutExtension {p : Path} {name : String} (h : p.fileName? = some name)
    (hstem : (cutName name).1 ≠ ".") :
    ∃ c, c.text = (cutName name).1 ∧ p.withoutExtension.components = p.components.dropLast ++ [c] := by
  have hname : IsName name := (exists_trimEnd_of_fileName? h).1
  obtain ⟨bare, hbare, hcomponents⟩ := components_withoutExtension h
  rw [bareName_of_stem_ne hstem, or_self] at hbare
  subst hbare
  have hfiller : isFiller (cutName name).1 = false :=
    isFiller_eq_false_iff.2 ⟨cutName_fst_ne_empty (isFiller_eq_false_iff.1 hname.1).1, hstem⟩
  cases hc : componentOf? (cutName name).1 with
  | none =>
    rw [componentOf?_eq_none_iff, hfiller] at hc
    exact absurd hc Bool.false_ne_true
  | some c =>
    rw [hc] at hcomponents
    exact ⟨c, text_of_componentOf? hc, hcomponents⟩

theorem stem_ne_of_stem?_ne {p : Path} {name : String} (h : p.fileName? = some name)
    (hstem : p.stem? ≠ some ".") : (cutName name).1 ≠ "." := by
  rw [stem?, h] at hstem
  exact fun hdot => hstem (congrArg some hdot)

end Path

namespace Naming

open TestScribe.Path

/-- A file name with its stem sanitized and its extension in lower case. -/
def tidyFile (name : String) : String :=
  (cutName name).2.elim (sanitize (cutName name).1)
    fun e => sanitize (cutName name).1 ++ "." ++ Text.lower e

/-- A path in place of another one below the root: it has a sanitized directory for every directory of the other
one, and a tidied file name for its last. -/
def InPlace (root source tidied : Path) : Prop :=
  ∃ front last, source.components = root.components ++ (front ++ [last]) ∧
    tidied.components = root.components ++ (front.map (.mapName sanitize) ++ [last.mapName tidyFile])

theorem tidyFile_eq_tidyName {name : String} (h : (cutName name).1 ≠ ".") : tidyFile name = tidyName name := by
  rw [tidyFile, tidyName, bareName_of_stem_ne h]

/-! ## Segments put together -/

/-- Sanitized directories lead down from the root; the top can come first, behind an empty root. -/
theorem components_foldl_sanitize {root : Path} {front : List Component} (hfront : ∀ c ∈ front, IsStep c)
    (htop : .root ∉ (root.components ++ front).tail) :
    ((front.map fun c => sanitize c.text).foldl Path.child root).components
      = root.components ++ front.map (.mapName sanitize) := by
  induction front generalizing root with
  | nil => simp
  | cons c front ih =>
    rw [List.forall_mem_cons] at hfront
    rw [List.map_cons, List.foldl_cons]
    have hchild : (root.child (sanitize c.text)).components = root.components ++ [c.mapName sanitize] := by
      rcases hfront.1 with rfl | ⟨s, rfl, hname, hslash⟩
      · have hnil : root.components = [] := by
          cases hroot : root.components with
          | nil => rfl
          | cons d ds => simp [hroot] at htop
        rw [hnil, show sanitize Component.root.text = "/" from rfl, child, join, if_pos (by decide)]
        decide
      · obtain ⟨hne, hdot⟩ := isFiller_eq_false_iff.1 (isName_sanitize hname).1
        rw [Component.text, components_child (notMem_sanitize hslash) hne hdot,
          componentOf?_of_name (isName_sanitize hname).1 (isName_sanitize hname).2]
        rfl
    have htop' : .root ∉ ((root.child (sanitize c.text)).components ++ front).tail := by
      rw [hchild]
      cases hroot : root.components with
      | nil => simpa [hroot] using htop
      | cons d ds =>
        rcases hfront.1 with rfl | ⟨s, rfl, -, -⟩
        · simp [hroot] at htop
        · simpa [hroot, Component.mapName] using htop
    rw [ih hfront.2 htop', hchild, List.map_cons, List.append_assoc, List.singleton_append]

/-- Sanitized directories and a name lead down from the root. -/
theorem components_foldl_file {root : Path} {front : List Component} (hfront : ∀ c ∈ front, IsStep c)
    (htop : .root ∉ (root.components ++ front).tail) {file : String} (hname : IsName file)
    (hslash : '/' ∉ file.toList) :
    (((front.map fun c => sanitize c.text) ++ [file]).foldl Path.child root).components
      = root.components ++ (front.map (.mapName sanitize) ++ [.name file]) := by
  obtain ⟨hne, hdot⟩ := isFiller_eq_false_iff.1 hname.1
  rw [List.foldl_append, List.foldl_cons, List.foldl_nil, components_child hslash hne hdot,
    componentOf?_of_name hname.1 hname.2, components_foldl_sanitize hfront htop, List.append_assoc]
  rfl

/-! ## Paths below the root and outside -/

section Source

variable {root source : Path} (hstem : source.stem? ≠ some ".")

include hstem

/-- A path below the root is tidied in place. -/
theorem exists_tidied_of_below (hplain : source.IsPlain) (habsolute : source.isAbsolute = true)
    (hup : .up ∉ source.components) {front : List Component} {last : Component}
    (hsource : source.components = root.components ++ (front ++ [last])) :
    ∃ tidied, tidy root root source = .ok tidied ∧ tidied.components
      = root.components ++ (front.map (.mapName sanitize) ++ [last.mapName tidyFile]) := by
  have hsteps := isStep_of_mem_components hplain habsolute hup
  rw [hsource] at hsteps
  have hconcat : source.components = (root.components ++ front) ++ [last] := by
    rw [hsource, List.append_assoc]
  have hlast : source.components.getLast? = some last := by rw [hconcat, List.getLast?_concat]
  rcases hsteps last (by simp) with rfl | ⟨name, rfl, hname, hslash⟩
  · -- the top is below the empty path only, and has no extension
    have hnone : source.fileName? = none := by rw [fileName?, hlast]
    obtain ⟨below, hafter, hbelow⟩ := exists_after?_of_components_eq hsource
    have hwhole : source.withoutExtension = source := by rw [withoutExtension, hnone]
    have hextension : source.extension? = none := by rw [extension?, hnone]; rfl
    rw [← hwhole] at hafter
    refine ⟨_, tidy_of_after? hafter hbelow, ?_⟩
    rw [hextension]
    have htop := source.root_notMem_tail
    rw [hsource] at htop
    have hsegments := components_foldl_sanitize (fun c hc => hsteps c (List.mem_append_right _ hc)) htop
    rwa [List.map_append, List.map_append] at hsegments
  · have hfile : source.fileName? = some name := fileName?_eq_some_iff.2 hlast
    have hcut := stem_ne_of_stem?_ne hfile hstem
    obtain ⟨c, hc, hcomponents⟩ := exists_stem_withoutExtension hfile hcut
    rw [hconcat, List.dropLast_concat, List.append_assoc] at hcomponents
    obtain ⟨below, hafter, hbelow⟩ := exists_after?_of_components_eq hcomponents
    refine ⟨_, tidy_of_after? hafter hbelow, ?_⟩
    have hextension : source.extension? = (cutName name).2 := by rw [extension?, hfile]; rfl
    rw [hextension, hc, ← tidyFile, Component.mapName, tidyFile_eq_tidyName hcut]
    exact components_foldl_file (fun c hc => hsteps c (by simp [hc])) (root_notMem_tail_of_components_eq hconcat)
      (isName_tidyName hname).1 (notMem_tidyName hslash)

/-- A path outside the root is refused, unless it is the root but for an extension: then it is left as it is. -/
theorem tidy_of_not_below (houtside : ¬ root.components <+: source.components) :
    tidy root root source = if source.withoutExtension.same root then .ok source
      else .error (.outsideRoot source.withoutExtension root) := by
  split
  · next hsame =>
    have hcomponents : source.withoutExtension.components = root.components ++ [] := by
      rw [same_iff.1 hsame, List.append_nil]
    obtain ⟨below, hafter, hnil⟩ := exists_after?_of_components_eq hcomponents
    rw [tidy, relative_eq_ok_iff.2 hafter, eq_empty_of_after? hafter hnil]
    rfl
  · next hother =>
    cases hafter : root.after? source.withoutExtension with
    | none =>
      rw [tidy, relative, hafter]
      rfl
    | some below =>
      exfalso
      have hcomponents := components_of_after? hafter
      obtain ⟨front, last, hfront⟩ : ∃ front last, below.components = front ++ [last] := by
        refine (List.eq_nil_or_concat' below.components).resolve_left fun hnil => hother ?_
        rw [same_iff, hcomponents, hnil, List.append_nil]
      -- what comes before the last component is not touched by taking the extension off
      apply houtside
      cases hname : source.fileName? with
      | none =>
        rw [withoutExtension, hname] at hcomponents
        exact ⟨_, hcomponents.symm⟩
      | some name =>
        obtain ⟨c, -, hstemmed⟩ := exists_stem_withoutExtension hname (stem_ne_of_stem?_ne hname hstem)
        rw [hcomponents, hfront, ← List.append_assoc] at hstemmed
        exact .trans ⟨front, (List.append_inj' hstemmed rfl).1⟩ (List.dropLast_prefix _)

end Source

/-! ## A stem that is a single dot -/

/-- The extension goes to whatever comes last below the root. -/
theorem components_of_tidy_extension {root source below tidied : Path} {e : String} {front : List Component}
    {c : Component} (hplain : source.IsPlain) (hextension : source.extension? = some e)
    (hafter : root.after? source.withoutExtension = some below) (hbelow : below.components = front ++ [c])
    (hfront : ∀ c ∈ front, IsStep c) (htop : .root ∉ (root.components ++ front).tail)
    (hfiller : isFiller c.text = false) (hslash : '/' ∉ c.text.toList)
    (h : tidy root root source = .ok tidied) :
    tidied.components = root.components ++
      (front.map (.mapName sanitize) ++ [.name (sanitize c.text ++ "." ++ Text.lower e)]) := by
  rw [tidy_of_after? hafter hbelow, hextension] at h
  obtain rfl := Except.ok.inj h
  obtain ⟨name, hname, hcut⟩ := Option.bind_eq_some_iff.1 hextension
  have hseparator : '/' ∉ (Text.lower e).toList := Text.notMem_lower (by decide) fun hmem =>
    notMem_of_fileName? hplain hname (mem_of_mem_extension hcut hmem)
  obtain ⟨hne, hdot⟩ := isFiller_eq_false_iff.1 (isFiller_sanitize hfiller)
  refine components_foldl_file hfront htop (isName_append_dot hne hdot _).1 ?_
  simp [notMem_sanitize hslash, hseparator]

/-- A file whose stem is a single dot reads as the directory above it without its extension, or as its own
directory.  It gets one dot more, or the path gets shorter, unless it is left as it is. -/
theorem tidied_of_dot {root source tidied : Path} {front : List Component} {last : Component} {name e : String}
    (hroot : root.isAbsolute = true) (hplain : source.IsPlain) (habsolute : source.isAbsolute = true)
    (hup : .up ∉ source.components) (hname : source.fileName? = some name) (hdot : (cutName name).1 = ".")
    (he : (cutName name).2 = some e) (hconcat : source.components = (root.components ++ front) ++ [last])
    (h : tidy root root source = .ok tidied) :
    tidied = source ∨ tidied.components.length < source.components.length ∨
      tidied.components = root.components ++
        (front.map (.mapName sanitize) ++ [.name (sanitize ".." ++ "." ++ Text.lower e)]) := by
  have hextension : source.extension? = some e := by rw [extension?, hname]; exact he
  have hsteps := isStep_of_mem_components hplain habsolute hup
  rw [hconcat] at hsteps
  have htop := root_notMem_tail_of_components_eq hconcat
  obtain ⟨bare, hbare, hcomponents⟩ := components_withoutExtension hname
  rw [hconcat, List.dropLast_concat, List.append_assoc] at hcomponents
  obtain ⟨below, hafter, hbelow⟩ := exists_after?_of_components_eq hcomponents
  rw [bareName_of_filler (exists_trimEnd_of_fileName? hname).1 (by simp [hdot]), hdot] at hbare
  rcases hbare with rfl | rfl
  · rw [show componentOf? ".." = some .up from rfl, Option.toList_some] at hbelow
    have hmoved := components_of_tidy_extension hplain hextension hafter hbelow
      (fun c hc => hsteps c (by simp [hc])) htop (by decide) (by decide) h
    rw [Component.text] at hmoved
    exact .inr (.inr hmoved)
  · rw [show componentOf? "." = none from rfl, Option.toList_none, List.append_nil] at hbelow
    rcases List.eq_nil_or_concat' front with rfl | ⟨above, directory, rfl⟩
    · -- its own directory is the root
      rw [tidy, relative_eq_ok_iff.2 hafter, eq_empty_of_after? hafter hbelow] at h
      exact .inl (Except.ok.inj h).symm
    · -- the directory stands in its place
      obtain ⟨s, rfl, hs, hslash⟩ : ∃ s, directory = .name s ∧ IsName s ∧ '/' ∉ s.toList := by
        refine (hsteps directory (by simp)).resolve_left ?_
        rintro rfl
        rw [components, of_decide_eq_true hroot] at htop
        exact htop (by simp [Anchor.components])
      rw [← List.append_assoc] at htop
      have habove := (List.sublist_append_left (root.components ++ above) [.name s]).tail
      have hmoved := components_of_tidy_extension hplain hextension hafter hbelow
        (fun c hc => hsteps c (by simp [hc])) (fun hmem => htop (habove.subset hmem)) hs.1 hslash h
      right
      left
      simp [hmoved, hconcat]

/-- A path whose file has a single dot for its stem is not tidied in place, if it is changed at all. -/
theorem eq_or_not_inPlace_of_dot {root source tidied : Path} (hroot : root.isAbsolute = true)
    (hplain : source.IsPlain) (habsolute : source.isAbsolute = true) (hup : .up ∉ source.components)
    (hstem : source.stem? = some ".") (h : tidy root root source = .ok tidied) :
    tidied = source ∨ ¬ InPlace root source tidied := by
  obtain ⟨name, hname, hdot⟩ := Option.map_eq_some_iff.1 hstem
  obtain ⟨e, he⟩ : ∃ e, (cutName name).2 = some e := by
    refine Option.ne_none_iff_exists'.1 fun hnone => ?_
    rw [cutName_of_snd_eq_none hnone] at hdot
    exact (isFiller_eq_false_iff.1 (exists_trimEnd_of_fileName? hname).1.1).2 hdot
  rw [or_iff_not_imp_right, not_not]
  rintro ⟨front, last, hsource, htidied⟩
  have hconcat : source.components = (root.components ++ front) ++ [last] := by
    rw [hsource, List.append_assoc]
  rcases tidied_of_dot hroot hplain habsolute hup hname hdot he hconcat h with hsame | hshort | hmoved
  · exact hsame
  · simp [htidied, hsource] at hshort
  · -- in place it would have a dot less
    have hlast : last = .name name := by
      have hget := fileName?_eq_some_iff.1 hname
      rw [hconcat, List.getLast?_concat] at hget
      exact Option.some_inj.1 hget
    rw [htidied, hlast] at hmoved
    have hfiles := (List.append_inj' (List.append_cancel_left hmoved) rfl).2
    have hfile : tidyFile name = sanitize ".." ++ "." ++ Text.lower e :=
      Component.name.inj (List.singleton_inj.1 hfiles)
    rw [tidyFile, he, hdot, Option.elim_some] at hfile
    exact absurd ((String.append_left_inj _).1 hfile) (by decide)

end Naming

/-- **Tidied paths stay in place.**  Let an absolute path without `..` be another one than the root.  Unless the stem
of its file is a single dot, it is tidied in place if it lies below the root; if it does not, it is refused, but for
the one exception that without its extension it is the root: then it is left as it is.  If the stem is a single dot
and the path is changed, it does not stay in place. -/
theorem tidied_stays_in_place (root source : String) (habsolute : (Path.ofString source).isAbsolute = true)
    (hup : .up ∉ (Path.ofString source).components)
    (hne : (Path.ofString source).same (.ofString root) = false) :
    let r := Path.ofString root
    let p := Path.ofString source
    (p.stem? ≠ some "." →
      (r.isBelow p = true → ∃ q, Naming.tidy r r p = .ok q ∧ Naming.InPlace r p q) ∧
      (r.isBelow p = false → Naming.tidy r r p
        = if p.withoutExtension.same r then .ok p else .error (.outsideRoot p.withoutExtension r))) ∧
    (p.stem? = some "." → r.isAbsolute = true →
      ∀ q, Naming.tidy r r p = .ok q → q = p ∨ ¬ Naming.InPlace r p q) := by
  intro r p
  have hplain : p.IsPlain := Path.isPlain_ofString source
  have hbelow : r.isBelow p = true ↔ r.components <+: p.components := List.isPrefixOf_iff_prefix
  refine ⟨fun hstem => ⟨fun habove => ?_, fun houtside => ?_⟩, fun hstem hroot q hq => ?_⟩
  · obtain ⟨rest, hrest⟩ := hbelow.1 habove
    -- something comes below the root
    obtain ⟨front, last, rfl⟩ : ∃ front last, rest = front ++ [last] := by
      refine (List.eq_nil_or_concat' rest).resolve_left ?_
      rintro rfl
      rw [List.append_nil] at hrest
      exact Bool.false_ne_true (hne.symm.trans (Path.same_iff.2 hrest.symm))
    obtain ⟨q, hq, hcomponents⟩ := Naming.exists_tidied_of_below hstem hplain habsolute hup hrest.symm
    exact ⟨q, hq, front, last, hrest.symm, hcomponents⟩
  · refine Naming.tidy_of_not_below hstem fun hprefix => ?_
    rw [hbelow.2 hprefix] at houtside
    cases houtside
  · exact Naming.eq_or_not_inPlace_of_dot hroot hplain habsolute hup hstem hq

/-- A path below the root with all that is changed in it, one outside, one that is the root but for its extension, and
one whose file has a single dot for its stem. -/
theorem tidied_stays_in_place_examples :
    let r := Path.ofString "/my project"
    (∃ q, Naming.tidy r r (.ofString "/my project/1 a/.b c/d-e.f.YML") = .ok q ∧
        Naming.InPlace r (.ofString "/my project/1 a/.b c/d-e.f.YML") q ∧
        q.text = "/my project/T1_a/.b c/d_e_f.yml") ∧
      Naming.tidy r r (.ofString "/other/a.yml") = .error (.outsideRoot (.ofString "/other/a") r) ∧
      Naming.tidy r r (.ofString "/my project.yml") = .ok (.ofString "/my project.yml") ∧
      ∃ q, Naming.tidy r r (.ofString "/my project/a/..yml") = .ok q ∧ q.text = "/my project/a/...yml" ∧
        ¬ Naming.InPlace r (.ofString "/my project/a/..yml") q := by
  intro r
  have hbelow := ((tidied_stays_in_place "/my project" "/my project/1 a/.b c/d-e.f.YML" rfl (by decide +kernel)
    (by decide +kernel)).1 (by decide +kernel)).1 (by decide +kernel)
  have houtside := ((tidied_stays_in_place "/my project" "/other/a.yml" rfl (by decide +kernel)
    (by decide +kernel)).1 (by decide +kernel)).2 (by decide +kernel)
  have hroot := ((tidied_stays_in_place "/my project" "/my project.yml" rfl (by decide +kernel)
    (by decide +kernel)).1 (by decide +kernel)).2 (by decide +kernel)
  have hdot := (tidied_stays_in_place "/my project" "/my project/a/..yml" rfl (by decide +kernel)
    (by decide +kernel)).2 (by decide +kernel) rfl
  obtain ⟨q, hq, hplace⟩ := hbelow
  have htext : Naming.tidy r r (.ofString "/my project/1 a/.b c/d-e.f.YML")
      = .ok ⟨.root, ["my project", "T1_a", ".b c", "d_e_f.yml"]⟩ := by decide +kernel
  have hdots : Naming.tidy r r (.ofString "/my project/a/..yml")
      = .ok ⟨.root, ["my project", "a", "...yml"]⟩ := by decide +kernel
  refine ⟨⟨q, hq, hplace, ?_⟩, ?_, ?_, _, hdots, by decide +kernel, (hdot _ hdots).resolve_left (by decide +kernel)⟩
  · rw [← Except.ok.inj (htext.symm.trans hq)]
    decide +kernel
  · rw [houtside]
    decide +kernel
  · rw [hroot]
    decide +kernel

/-- A path outside the root is not always refused, nor does every path below the root stay in place. -/
theorem tidied_not_always_in_place :
    ¬ (∀ (root source : String) (q : Path), (Path.ofString source).isAbsolute = true →
      .up ∉ (Path.ofString source).components → (Path.ofString source).same (.ofString root) = false →
      Naming.tidy (.ofString root) (.ofString root) (.ofString source) = .ok q →
      Naming.InPlace (.ofString root) (.ofString source) q) := by
  intro h
  obtain ⟨front, last, hsource, -⟩ := h "/project" "/project.yml" (.ofString "/project.yml") rfl
    (by decide +kernel) (by decide +kernel) (by decide +kernel)
  have hbelow : (Path.ofString "/project").isBelow (.ofString "/project.yml") = true :=
    List.isPrefixOf_iff_prefix.2 ⟨_, hsource.symm⟩
  exact absurd hbelow (by decide +kernel)

end TestScribe
