/-
# Tidying a path twice

A tidied path is put together from sanitized directories, a sanitized stem and an extension in lower case.  Cutting it
up again gives the same parts, and these stay as they are, so nothing changes when it is tidied once more.  There is
one exception, below the empty root: a path that is `.` when its extension is taken off gets the extension put behind
this dot, and without it reads as the directory above from then on.

* `Naming.fileBelow`, `Naming.IsTidy` : a path by its parts, and parts that stay as they are;
* `Naming.tidy_fileBelow`, `Naming.exists_isTidy_of_tidy` : paths made of such parts stay, and tidied paths are;
* `Naming.tidy_empty` : below the empty root, a path from the top or from a written dot is tidied from there;
* `tidied_again` : which tidied paths stay as they are.
-/
import TestScribe.Proofs.LegalNames
import TestScribe.Proofs.LowerCase
import TestScribe.Proofs.Tidying
import TestScribe.Proofs.Writing

namespace TestScribe

namespace Path

/-! ## Names and their extensions -/

theorem snd_cutName_of_notMem {name : String} (h : '.' ∉ name.toList) : (cutName name).2 = none := by
  have hdrop : name.toList.reverse.dropWhile (· ≠ '.') = [] := by
    rw [List.dropWhile_eq_nil_iff]
    intro c hc
    simpa using ne_of_mem_of_not_mem (List.mem_reverse.1 hc) h
  simp only [cutName, drop_length_takeWhile, hdrop]

/-- A file name is its stem and its extension, with a dot between them. -/
theorem eq_append_of_cutName {name e : String} (h : (cutName name).2 = some e) :
    name = (cutName name).1 ++ "." ++ e := by
  have hcut := List.takeWhile_append_dropWhile (p := (· ≠ '.')) (l := name.toList.reverse)
  have hhead := List.head?_dropWhile_not (· ≠ '.') name.toList.reverse
  simp only [cutName, drop_length_takeWhile] at h ⊢
  split at h
  · cases h
  · next d before hne hdrop =>
    cases h
    rw [hdrop] at hcut hhead
    have hdot : d = '.' := by simpa using hhead
    have hname := congrArg List.reverse hcut
    rw [List.reverse_reverse] at hname
    refine String.toList_inj.1 (hname.symm.trans ?_)
    simp [hdot]
  · cases h

/-- Behind a stem that is a single dot, the extension is not empty. -/
theorem extension_ne_empty_of_dot {name e : String} (hname : IsName name) (hstem : (cutName name).1 = ".")
    (he : (cutName name).2 = some e) : e ≠ "" := by
  rintro rfl
  apply hname.2
  rw [eq_append_of_cutName he, hstem]
  decide

/-! ## Paths of a few components -/

theorem empty_join (q : Path) : empty.join q = q := by
  rw [join, if_pos rfl, ite_self]

/-- A name behind a separator is a name in the top directory. -/
theorem ofString_top {name : String} (hplain : '/' ∉ name.toList) (hne : name ≠ "") (hdot : name ≠ ".") :
    ofString ("/" ++ name) = child ⟨.root, []⟩ name := by
  have hchars : ("/" ++ name).toList = '/' :: name.toList := by simp
  rw [child, ofString_of_plain hplain hne hdot]
  unfold ofString
  rw [hchars]
  simp [piecesOf, Text.splitChars_of_notMem hplain, hne, join, isAbsolute, allPieces, empty]

/-- A path that a text writes is empty if it has no components. -/
theorem IsWritten.eq_empty {p : Path} (hp : p.IsWritten) (h : p.components = []) : p = empty := by
  obtain ⟨anchor, pieces⟩ := p
  rw [components, List.append_eq_nil_iff] at h
  cases anchor with
  | root => cases h.1
  | here => cases h.1
  | none =>
    cases pieces with
    | nil => rfl
    | cons piece rest =>
      have hnone := List.filterMap_eq_nil_iff.1 h.2 piece List.mem_cons_self
      rw [componentOf?_eq_none_iff, hp.head rfl piece rfl] at hnone
      cases hnone

/-- A path whose first component is a written dot starts there. -/
theorem anchor_of_components_here {p : Path} {rest : List Component} (h : p.components = .here :: rest) :
    p.anchor = .here := by
  obtain ⟨anchor, pieces⟩ := p
  cases anchor with
  | root => cases h
  | here => rfl
  | none =>
    obtain ⟨piece, -, hpiece⟩ := List.mem_filterMap.1 (show .here ∈ pieces.filterMap componentOf? from
      (show pieces.filterMap componentOf? = _ from h) ▸ List.mem_cons_self)
    rcases (componentOf?_cases hpiece).2 with ⟨-, hup⟩ | ⟨-, hname⟩
    · cases hup
    · cases hname

/-- The segments of a path that starts nowhere are pieces. -/
theorem mem_segments_of_anchor {p : Path} (hp : p.IsPlain) (hanchor : p.anchor = .none) {segment : String}
    (h : segment ∈ p.segments) : isFiller segment = false ∧ '/' ∉ segment.toList := by
  obtain ⟨c, hc, rfl⟩ := List.mem_map.1 h
  rw [components, hanchor] at hc
  obtain ⟨piece, hpiece, hcomponent⟩ := List.mem_filterMap.1 hc
  rw [text_of_componentOf? hcomponent]
  exact ⟨(componentOf?_cases hcomponent).1, hp piece hpiece⟩

end Path

namespace Naming

open TestScribe.Path

/-! ## Sanitized segments -/

/-- Unless a segment begins with a dot, no character is left to replace. -/
theorem isReplaced_of_mem_sanitize {segment : String} (hdot : segment.toList.head? ≠ some '.') {c : Char}
    (hc : c ∈ (sanitize segment).toList) : isReplaced c = false := by
  rw [toList_sanitize hdot, List.mem_append] at hc
  rcases hc with hc | hc
  · split at hc
    · rw [List.mem_singleton.1 hc]
      decide
    · cases hc
  · obtain ⟨d, -, rfl⟩ := List.mem_map.1 hc
    split
    · decide
    · next hkept => exact Bool.eq_false_iff.2 hkept

theorem sanitize_sanitize (segment : String) : sanitize (sanitize segment) = sanitize segment := by
  by_cases hdot : segment.toList.head? = some '.'
  · rw [sanitize_of_head_eq_dot hdot, sanitize_of_head_eq_dot hdot]
  · have hchars : ∀ c ∈ (sanitize segment).toList, isReplaced c = false := fun c => isReplaced_of_mem_sanitize hdot
    have hstart : (sanitize segment).toList.head? ≠ some '.' := by
      intro hstart
      exact absurd (hchars '.' (List.mem_of_head? hstart)) (by decide)
    have hlead : ((sanitize segment).toList.head?.map Text.isDigit).getD false = false := by
      rw [← head_sanitize hdot]
      cases (sanitize segment).toList.head? <;> rfl
    rw [← String.toList_inj, toList_sanitize hstart, hlead, if_neg Bool.false_ne_true, List.nil_append]
    refine (List.map_congr_left fun c hc => ?_).trans (List.map_id _)
    rw [hchars c hc, if_neg Bool.false_ne_true]
    rfl

/-! ## Paths by their parts -/

/-- The path of a file below the root, by its directories, its stem and its extension. -/
def fileBelow (root : Path) (front : List String) (stem : String) (extension : Option String) : Path :=
  (front ++ [extension.elim stem fun e => stem ++ "." ++ e]).foldl Path.child root

/-- Parts of a path that stay as they are when it is tidied. -/
structure IsTidy (front : List String) (stem : String) (extension : Option String) : Prop where
  pieces : ∀ segment ∈ front ++ [stem], isFiller segment = false ∧ '/' ∉ segment.toList
  sanitized : ∀ segment ∈ front ++ [stem], sanitize segment = segment
  plain : ∀ e, extension = some e → '.' ∉ e.toList ∧ '/' ∉ e.toList
  lower : extension.map Text.lower = extension
  /-- without an extension, none is found in the stem -/
  whole : extension = none → stem = ".." ∨ (cutName stem).2 = none

section IsTidy

variable {front : List String} {stem : String} {extension : Option String}

/-- The extension is found again, and the stem comes last without it. -/
theorem IsTidy.cut (h : IsTidy front stem extension) (root : Path) :
    (fileBelow root front stem extension).extension? = extension ∧
      (fileBelow root front stem extension).withoutExtension.components
        = root.components ++ (front ++ [stem]).filterMap componentOf? := by
  have hpieces := h.pieces
  rw [List.forall_mem_append, List.forall_mem_singleton] at hpieces
  obtain ⟨hfront, hfiller, hslash⟩ := hpieces
  obtain ⟨hne, hdot⟩ := isFiller_eq_false_iff.1 hfiller
  have hlast : [stem].filterMap componentOf? = (componentOf? stem).toList := by
    cases hc : componentOf? stem <;> simp [hc]
  rw [fileBelow, List.foldl_append, List.foldl_cons, List.foldl_nil, List.filterMap_append, ← List.append_assoc,
    ← components_foldl_child hfront root, hlast]
  cases extension with
  | some e =>
    obtain ⟨hplain, hplain'⟩ := h.plain e rfl
    have hcut : cutName (stem ++ "." ++ e) = (stem, some e) := by rw [cutName_append_dot _ hplain, if_neg hne]
    have hname : IsName (stem ++ "." ++ e) := (isName_append_dot hne hdot e).1
    have hseparator : '/' ∉ (stem ++ "." ++ e).toList := by simp [hslash, hplain']
    have hend := endsIn_child (p := front.foldl Path.child root) hseparator hname
    rw [Option.elim_some]
    constructor
    · rw [extension?, hend.fileName?_eq, Option.bind_some, hcut]
    · obtain ⟨hfile, hfile'⟩ := isFiller_eq_false_iff.1 hname.1
      rw [hend.components_withoutExtension, components_child hseparator hfile hfile',
        componentOf?_of_name hname.1 hname.2, bareName_of_stem_ne (by rwa [hcut]), hcut, Option.toList_some,
        List.dropLast_concat]
  | none =>
    rw [Option.elim_none]
    have hcomponents := components_child (p := front.foldl Path.child root) hslash hne hdot
    by_cases hup : stem = ".."
    · have hnone : ((front.foldl Path.child root).child stem).fileName? = none := by
        rw [fileName?, hcomponents, hup, show componentOf? ".." = some .up from rfl, Option.toList_some,
          List.getLast?_concat]
      rw [extension?, withoutExtension, hnone]
      exact ⟨rfl, hcomponents⟩
    · have hcut := (h.whole rfl).resolve_left hup
      have hend := endsIn_child (p := front.foldl Path.child root) hslash ⟨hfiller, hup⟩
      constructor
      · rw [extension?, hend.fileName?_eq, Option.bind_some, hcut]
      · rw [hend.components_withoutExtension, bareName_of_snd_eq_none hcut, hcomponents,
          componentOf?_of_name hfiller hup, Option.toList_some, List.dropLast_concat]

/-- A path made of tidy parts stays as it is. -/
theorem tidy_fileBelow (h : IsTidy front stem extension) (root : Path) :
    tidy root root (fileBelow root front stem extension) = .ok (fileBelow root front stem extension) := by
  have hpieces : ∀ segment ∈ front ++ [stem], isFiller segment = false :=
    fun segment hmem => (h.pieces segment hmem).1
  have hsanitized := h.sanitized
  rw [List.forall_mem_append, List.forall_mem_singleton] at hpieces hsanitized
  obtain ⟨hextension, hcomponents⟩ := h.cut root
  obtain ⟨below, hafter, hbelow⟩ := exists_after?_of_components_eq hcomponents
  obtain ⟨c, hc⟩ := Option.ne_none_iff_exists'.1 fun hnone =>
    Bool.false_ne_true (hpieces.2.symm.trans (componentOf?_eq_none_iff.1 hnone))
  rw [List.filterMap_append, List.filterMap_cons_some hc, List.filterMap_nil] at hbelow
  have hfront : ((front.filterMap componentOf?).map fun c => sanitize c.text) = front := by
    rw [show (fun c => sanitize (Component.text c)) = sanitize ∘ Component.text from rfl, ← List.map_map,
      map_text_filterMap hpieces.1]
    exact (List.map_congr_left hsanitized.1).trans (List.map_id _)
  rw [tidy_of_after? hafter hbelow, hextension, hfront, text_of_componentOf? hc, hsanitized.2, fileBelow]
  have hlower := h.lower
  cases extension with
  | none => rfl
  | some e =>
    rw [Option.elim_some, Option.elim_some, Option.some_inj.1 hlower]

/-- Something is left below the root without the extension. -/
theorem IsTidy.exists_below (h : IsTidy front stem extension) (root : Path) :
    ∃ front' c, (fileBelow root front stem extension).withoutExtension.components
      = root.components ++ (front' ++ [c]) := by
  obtain ⟨c, hc⟩ := Option.ne_none_iff_exists'.1 fun hnone => Bool.false_ne_true
    ((h.pieces stem (by simp)).1.symm.trans (componentOf?_eq_none_iff.1 hnone))
  refine ⟨front.filterMap componentOf?, c, ?_⟩
  rw [(h.cut root).2, List.filterMap_append, List.filterMap_cons_some hc, List.filterMap_nil]

end IsTidy

/-! ## Tidied paths -/

theorem plain_lower_extension {p : Path} (hplain : p.IsPlain) {name e : String} (hname : p.fileName? = some name)
    (he : (cutName name).2 = some e) : '.' ∉ (Text.lower e).toList ∧ '/' ∉ (Text.lower e).toList :=
  ⟨Text.notMem_lower (by decide) (notMem_extension he), Text.notMem_lower (by decide) fun hmem =>
    notMem_of_fileName? hplain hname (mem_of_mem_extension he hmem)⟩

section Tidied

variable {root source below q : Path} {front : List Component} {c : Component}
  (hafter : root.after? source.withoutExtension = some below) (hbelow : below.components = front ++ [c])

include hafter hbelow

/-- Where there is no extension, none is found in the sanitized stem either. -/
theorem whole_of_extension?_eq_none (hc : isFiller c.text = false ∧ '/' ∉ c.text.toList)
    (hnone : source.extension? = none) : sanitize c.text = ".." ∨ (cutName (sanitize c.text)).2 = none := by
  have hlast : source.withoutExtension.components.getLast? = some c := by
    rw [components_of_after? hafter, hbelow, ← List.append_assoc, List.getLast?_concat]
  cases hname : source.fileName? with
  | none =>
    rw [withoutExtension, hname] at hlast
    cases c with
    | root => exact absurd hc.2 (by decide)
    | here => exact absurd hc.1 (by decide)
    | up => exact .inl (by decide)
    | name s =>
      rw [fileName?_eq_some_iff.2 hlast] at hname
      cases hname
  | some name =>
    have hcut : (cutName name).2 = none := by
      rw [extension?, hname] at hnone
      exact hnone
    have hkept := fileName?_eq_some_iff.1 (fileName?_withoutExtension hname hcut)
    obtain rfl := Option.some_inj.1 (hlast.symm.trans hkept)
    right
    rcases sanitize_cases name with hsame | hdot
    · rwa [Component.text, hsame]
    · exact snd_cutName_of_notMem hdot

/-- Below a root that the path goes on from with pieces, a tidied path is made of tidy parts. -/
theorem exists_isTidy_of_tidy (hplain : source.IsPlain)
    (hpieces : ∀ segment ∈ below.segments, isFiller segment = false ∧ '/' ∉ segment.toList)
    (h : tidy root root source = .ok q) :
    ∃ front stem extension, q = fileBelow root front stem extension ∧ IsTidy front stem extension := by
  rw [tidy_of_after? hafter hbelow] at h
  refine ⟨front.map fun c => sanitize c.text, sanitize c.text, source.extension?.map Text.lower, ?_, ?_⟩
  · rw [← Except.ok.inj h, fileBelow]
    cases source.extension? <;> rfl
  · have hparts : (front.map fun c => sanitize c.text) ++ [sanitize c.text] = below.segments.map sanitize := by
      rw [segments, hbelow, List.map_map, List.map_append]
      rfl
    refine {
      pieces := ?_
      sanitized := ?_
      plain := ?_
      lower := ?_
      whole := ?_ }
    · rw [hparts, List.forall_mem_map]
      intro segment hsegment
      exact ⟨isFiller_sanitize (hpieces segment hsegment).1, notMem_sanitize (hpieces segment hsegment).2⟩
    · rw [hparts, List.forall_mem_map]
      exact fun segment _ => sanitize_sanitize segment
    · rintro _ he
      obtain ⟨e, hextension, rfl⟩ := Option.map_eq_some_iff.1 he
      obtain ⟨name, hname, hcut⟩ := Option.bind_eq_some_iff.1 hextension
      exact plain_lower_extension hplain hname hcut
    · rw [Option.map_map]
      exact congrArg (source.extension?.map ·) (funext Text.lower_lower)
    · intro hnone
      refine whole_of_extension?_eq_none hafter hbelow (hpieces c.text ?_) (Option.map_eq_none_iff.1 hnone)
      rw [segments, hbelow]
      simp

end Tidied

/-- Where the path goes on from the root with pieces, its tidied form stays as it is. -/
theorem tidy_of_tidied {root source below q : Path} (hplain : source.IsPlain)
    (hafter : root.after? source.withoutExtension = some below)
    (hpieces : ∀ segment ∈ below.segments, isFiller segment = false ∧ '/' ∉ segment.toList)
    (h : tidy root root source = .ok q) : tidy root root q = .ok q := by
  rcases List.eq_nil_or_concat' below.components with hnil | ⟨front, c, hbelow⟩
  · -- a path that is the root but for an extension is left as it is
    have hsame := h
    rw [tidy, relative_eq_ok_iff.2 hafter, eq_empty_of_after? hafter hnil] at hsame
    rwa [← Except.ok.inj hsame] at h ⊢
  · obtain ⟨front, stem, extension, rfl, htidy⟩ := exists_isTidy_of_tidy hafter hbelow hplain hpieces h
    exact tidy_fileBelow htidy root

/-! ## Below the empty root -/

/-- A path that starts at the top, or at a written dot, is tidied from there. -/
theorem tidy_empty {anchor : Anchor} (hanchor : anchor ≠ .none) {p : Path} {front : List Component} {c : Component}
    (h : p.withoutExtension.components = Anchor.components anchor ++ (front ++ [c])) :
    tidy empty empty p = tidy ⟨anchor, []⟩ ⟨anchor, []⟩ p := by
  have hstart : p.withoutExtension.components = (Path.mk anchor []).components ++ (front ++ [c]) := by
    rw [h]
    exact congrArg (· ++ (front ++ [c])) (List.append_nil _).symm
  have hempty : p.withoutExtension.components = empty.components ++ ((Anchor.components anchor ++ front) ++ [c]) := by
    rw [h, List.append_assoc]
    rfl
  obtain ⟨below, hafter, hbelow⟩ := exists_after?_of_components_eq hstart
  obtain ⟨whole, hwhole, hcomponents⟩ := exists_after?_of_components_eq hempty
  rw [tidy_of_after? hafter hbelow, tidy_of_after? hwhole hcomponents]
  cases anchor with
  | none => exact absurd rfl hanchor
  | root => rfl
  | here => rfl

section Start

variable {p q : Path} {name : String}

/-- The start is all that is left without the extension only if the stem is a single dot. -/
theorem stem_eq_dot_of_start (hname : p.fileName? = some name)
    (hstart : p.withoutExtension.components = Anchor.components p.anchor) : (cutName name).1 = "." := by
  by_contra hstem
  obtain ⟨c, -, hcomponents⟩ := exists_stem_withoutExtension hname hstem
  obtain ⟨-, before, -, hbefore⟩ := exists_trimEnd_of_fileName? hname
  -- the start is there before the name, and cannot be in its place as well
  rw [hbefore, List.dropLast_concat, hstart, components, List.append_assoc] at hcomponents
  simp at hcomponents

/-- A start without an extension stays as it is. -/
theorem tidy_of_tidied_bare {c : Component} (hbare : p.extension? = none) (hc : c = .root ∨ c = .here)
    (hstart : p.withoutExtension.components = [c]) (h : tidy empty empty p = .ok q) : tidy empty empty q = .ok q := by
  obtain ⟨below, hafter, hbelow⟩ := exists_after?_of_components_eq
    (show p.withoutExtension.components = empty.components ++ ([] ++ [c]) from hstart)
  rw [tidy_of_after? hafter hbelow, hbare] at h
  rw [← Except.ok.inj h]
  rcases hc with rfl | rfl <;> decide +kernel

variable {e : String} (hplain : p.IsPlain) (hname : p.fileName? = some name) (he : (cutName name).2 = some e)
  (h : tidy empty empty p = .ok q)

include hname he h

/-- Behind the start comes the extension. -/
theorem eq_ofString_of_start {c : Component} (hstart : p.withoutExtension.components = [c]) :
    q = .ofString (sanitize c.text ++ "." ++ Text.lower e) := by
  obtain ⟨below, hafter, hbelow⟩ := exists_after?_of_components_eq
    (show p.withoutExtension.components = empty.components ++ ([] ++ [c]) from hstart)
  have hextension : p.extension? = some e := by rw [extension?, hname, Option.bind_some, he]
  rw [tidy_of_after? hafter hbelow, hextension] at h
  rw [← Except.ok.inj h]
  exact empty_join _

include hplain

/-- From the top, the extension becomes a hidden file, which stays as it is. -/
theorem tidy_of_tidied_top (hanchor : p.anchor = .root)
    (hstart : p.withoutExtension.components = Anchor.components p.anchor) : tidy empty empty q = .ok q := by
  obtain ⟨hdot, hslash⟩ := plain_lower_extension hplain hname he
  have hne := Text.lower_ne_empty
    (extension_ne_empty_of_dot (exists_trimEnd_of_fileName? hname).1 (stem_eq_dot_of_start hname hstart) he)
  rw [hanchor] at hstart
  have hq := eq_ofString_of_start hname he h hstart
  have hfiller : isFiller ("." ++ Text.lower e) = false := by
    rw [isFiller_eq_false_iff, Ne, Ne, ← String.toList_inj, ← String.toList_inj, String.toList_append]
    simpa using hne
  have hhidden : IsTidy [] ("." ++ Text.lower e) none := {
    pieces := by simp [hfiller, hslash]
    sanitized := by
      rw [List.nil_append, List.forall_mem_singleton]
      exact sanitize_of_head_eq_dot (by simp)
    plain := nofun
    lower := rfl
    whole := fun _ => .inr (by simpa using extension_append_dot "" hdot) }
  obtain ⟨front, c, hbelow⟩ := hhidden.exists_below ⟨.root, []⟩
  have hfile : q = fileBelow ⟨.root, []⟩ [] ("." ++ Text.lower e) none := by
    obtain ⟨hne, hdot⟩ := isFiller_eq_false_iff.1 hfiller
    have hplain : '/' ∉ ("." ++ Text.lower e).toList := by simp [hslash]
    rw [hq, show sanitize Component.root.text = "/" by decide, String.append_assoc, ofString_top hplain hne hdot]
    rfl
  rw [hfile, tidy_empty (show Anchor.root ≠ .none from nofun) hbelow]
  exact tidy_fileBelow hhidden _

/-- From a written dot, the extension becomes a file whose stem is this dot, and which gets another dot. -/
theorem tidy_ne_of_tidied_here (hanchor : p.anchor = .here)
    (hstart : p.withoutExtension.components = Anchor.components p.anchor) :
    ∃ q', tidy empty empty q = .ok q' ∧ q'.same q = false := by
  obtain ⟨hdot, hslash⟩ := plain_lower_extension hplain hname he
  have hne := Text.lower_ne_empty
    (extension_ne_empty_of_dot (exists_trimEnd_of_fileName? hname).1 (stem_eq_dot_of_start hname hstart) he)
  rw [hanchor] at hstart
  have hq := eq_ofString_of_start hname he h hstart
  rw [show sanitize Component.here.text = "." by decide] at hq
  -- dots and the extension behind them are one name, however many dots there are
  have hletter : ∃ c ∈ (Text.lower e).toList, c ≠ '.' := by
    obtain ⟨c, cs, hcs⟩ := List.exists_cons_of_ne_nil (mt String.toList_eq_nil_iff.1 hne)
    have hc : c ∈ (Text.lower e).toList := by simp [hcs]
    exact ⟨c, hc, ne_of_mem_of_not_mem hc hdot⟩
  have hwritten : ∀ dots : String, '/' ∉ dots.toList →
      ofString (dots ++ Text.lower e) = ⟨.none, [dots ++ Text.lower e]⟩ := by
    intro dots hdots
    obtain ⟨hne, hdot⟩ := isFiller_eq_false_iff.1 (isName_append hletter dots).1
    exact ofString_of_plain (by simp [hdots, hslash]) hne hdot
  have hsingle : ∀ dots : String, components ⟨.none, [dots ++ Text.lower e]⟩ = [.name (dots ++ Text.lower e)] := by
    intro dots
    obtain ⟨hfiller, hup⟩ := isName_append hletter dots
    exact List.filterMap_cons_some (componentOf?_of_name hfiller hup)
  have hisName : IsName ("." ++ "." ++ Text.lower e) := isName_append hletter _
  rw [hwritten _ (by decide)] at hq
  have hcut : cutName ("." ++ "." ++ Text.lower e) = (".", some (Text.lower e)) := by
    rw [cutName_append_dot _ hdot, if_neg (by decide)]
  have hend : q.EndsIn ("." ++ "." ++ Text.lower e) := ⟨by rw [hq]; rfl, hisName⟩
  have hup : q.withoutExtension.components = [.up] := by
    rw [hend.components_withoutExtension, bareName_of_filler hisName (by rw [hcut]; simp), hend.components_eq,
      List.dropLast_concat, hq]
    rfl
  obtain ⟨below, hafter, hbelow⟩ := exists_after?_of_components_eq
    (show q.withoutExtension.components = empty.components ++ ([] ++ [.up]) from hup)
  have hagain := tidy_of_after? hafter hbelow
  refine ⟨_, hagain, ?_⟩
  rw [Bool.eq_false_iff, Ne, same_iff, eq_ofString_of_start hend.fileName?_eq (by rw [hcut]) hagain hup,
    show sanitize Component.up.text = ".." by decide, Text.lower_lower, hwritten _ (by decide), hq, hsingle, hsingle]
  intro hnames
  exact absurd ((String.append_left_inj _).1 (Component.name.inj (List.singleton_inj.1 hnames))) (by decide)

end Start

/-- Below a start, a tidied path stays as it is. -/
theorem tidy_of_tidied_start {p q : Path} (hplain : p.IsPlain) {anchor : Anchor} (hanchor : anchor ≠ .none)
    {front : List Component} {c : Component}
    (hstart : p.withoutExtension.components = Anchor.components anchor ++ (front ++ [c]))
    (h : tidy empty empty p = .ok q) : tidy empty empty q = .ok q := by
  have hbase : (Path.mk anchor []).components = Anchor.components anchor := List.append_nil _
  have hne : (Path.mk anchor []).components ≠ [] := by
    rw [hbase]
    cases anchor with
    | none => exact absurd rfl hanchor
    | root => exact List.cons_ne_nil _ _
    | here => exact List.cons_ne_nil _ _
  rw [tidy_empty hanchor hstart] at h
  rw [← hbase] at hstart
  obtain ⟨below, hafter, hbelow⟩ := exists_after?_of_components_eq hstart
  obtain ⟨front, stem, extension, rfl, htidy⟩ := exists_isTidy_of_tidy hafter hbelow hplain
    (fun segment => mem_segments_of_after? hne hafter (isPlain_withoutExtension hplain)) h
  obtain ⟨front', c', hbelow'⟩ := htidy.exists_below ⟨anchor, []⟩
  rw [hbase] at hbelow'
  rw [tidy_empty hanchor hbelow']
  exact tidy_fileBelow htidy _

/-- Below the empty root, a tidied path stays as it is unless all but its extension is a written dot. -/
theorem tidy_of_tidied_empty {p q : Path} (hplain : p.IsPlain) (h : tidy empty empty p = .ok q)
    (hdot : p.extension? ≠ none → p.withoutExtension.components ≠ [.here]) : tidy empty empty q = .ok q := by
  have hwhole : p.withoutExtension.components = Anchor.components p.anchor ++
      p.withoutExtension.pieces.filterMap componentOf? := by
    rw [components, anchor_withoutExtension]
  by_cases hanchor : p.anchor = .none
  · obtain ⟨below, hafter, hbelow⟩ := exists_after?_of_components_eq
      (show p.withoutExtension.components = empty.components ++ p.withoutExtension.components from rfl)
    refine tidy_of_tidied hplain hafter (fun segment hsegment => ?_) h
    rw [segments, hbelow] at hsegment
    exact mem_segments_of_anchor (isPlain_withoutExtension hplain) (by rw [anchor_withoutExtension, hanchor]) hsegment
  · rcases List.eq_nil_or_concat' (p.withoutExtension.pieces.filterMap componentOf?) with hnil | ⟨front, c, hrest⟩
    · -- the start is all that is left without the extension
      rw [hnil, List.append_nil] at hwhole
      cases hextension : p.extension? with
      | none =>
        cases hp : p.anchor with
        | none => exact absurd hp hanchor
        | root => exact tidy_of_tidied_bare hextension (.inl rfl) (by rw [hwhole, hp]; rfl) h
        | here => exact tidy_of_tidied_bare hextension (.inr rfl) (by rw [hwhole, hp]; rfl) h
      | some e =>
        obtain ⟨name, hname, hcut⟩ := Option.bind_eq_some_iff.1 hextension
        cases hp : p.anchor with
        | none => exact absurd hp hanchor
        | root => exact tidy_of_tidied_top hplain hname hcut h hp hwhole
        | here => exact absurd (by rw [hwhole, hp]; rfl) (hdot (by simp [hextension]))
    · rw [hrest] at hwhole
      exact tidy_of_tidied_start hplain hanchor hwhole h

end Naming

/-- **Tidying twice.**  A tidied path stays as it is when it is tidied again, whatever its segments are, but for one
exception: the root is the empty path, and the path is a written dot when its extension is taken off.  Then tidying
again leads to another path. -/
theorem tidied_again (root source : String) {q : Path}
    (h : Naming.tidy (.ofString root) (.ofString root) (.ofString source) = .ok q) :
    let isDot := Path.ofString root = .empty ∧ (Path.ofString source).extension? ≠ none ∧
      (Path.ofString source).withoutExtension.same (.ofString ".") = true
    (¬ isDot → Naming.tidy (.ofString root) (.ofString root) q = .ok q) ∧
      (isDot → ∃ q', Naming.tidy (.ofString root) (.ofString root) q = .ok q' ∧ q'.same q = false) := by
  intro isDot
  have hplain := Path.isPlain_ofString source
  constructor
  · intro hdot
    by_cases hempty : Path.ofString root = .empty
    · rw [hempty] at h ⊢
      refine Naming.tidy_of_tidied_empty hplain h fun hextension hhere => hdot ⟨hempty, hextension, ?_⟩
      exact Path.same_iff.2 hhere
    · obtain ⟨below, hafter, -⟩ := bind_eq_ok.1 h
      rw [Naming.relative_eq_ok_iff] at hafter
      have hbase : (Path.ofString root).components ≠ [] :=
        fun hnil => hempty ((Path.isWritten_ofString root).eq_empty hnil)
      refine Naming.tidy_of_tidied hplain hafter (fun segment => ?_) h
      exact Path.mem_segments_of_after? hbase hafter (Path.isPlain_withoutExtension hplain)
  · rintro ⟨hempty, hextension, hhere⟩
    rw [hempty] at h ⊢
    obtain ⟨e, he⟩ := Option.ne_none_iff_exists'.1 hextension
    obtain ⟨name, hname, hcut⟩ := Option.bind_eq_some_iff.1 he
    have hhere : (Path.ofString source).withoutExtension.components = [.here] := Path.same_iff.1 hhere
    have hanchor : (Path.ofString source).anchor = .here := by
      rw [← Path.anchor_withoutExtension]
      exact Path.anchor_of_components_here hhere
    exact Naming.tidy_ne_of_tidied_here hplain hname hcut h hanchor (by rw [hhere, hanchor]; rfl)

/-- A path with all that is changed in it, one next to the root, and one that leads to another path. -/
theorem tidied_again_examples :
    let r := Path.ofString "/my project"
    (Naming.tidy r r (.ofString "/my project/1 a/.b c/d-e..f..YML/")
        = .ok (.ofString "/my project/T1_a/.b c/d_e__f_.yml") ∧
      Naming.tidy r r (.ofString "/my project/T1_a/.b c/d_e__f_.yml")
        = .ok (.ofString "/my project/T1_a/.b c/d_e__f_.yml")) ∧
    (Naming.tidy r r (.ofString "/my project/..yml") = .ok (.ofString "/my project/...yml") ∧
      Naming.tidy r r (.ofString "/my project/...yml") = .ok (.ofString "/my project/...yml")) ∧
    Naming.tidy .empty .empty (.ofString "./..yml/") = .ok (.ofString "..yml") ∧
      ∃ q', Naming.tidy .empty .empty (.ofString "..yml") = .ok q' ∧ q'.same (.ofString "..yml") = false := by
  intro r
  have hchanged : Naming.tidy r r (.ofString "/my project/1 a/.b c/d-e..f..YML/")
      = .ok (.ofString "/my project/T1_a/.b c/d_e__f_.yml") := by decide +kernel
  have hdots : Naming.tidy r r (.ofString "/my project/..yml") = .ok (.ofString "/my project/...yml") := by
    decide +kernel
  have hdot : Naming.tidy .empty .empty (.ofString "./..yml/") = .ok (.ofString "..yml") := by decide +kernel
  exact ⟨⟨hchanged, (tidied_again "/my project" "/my project/1 a/.b c/d-e..f..YML/" hchanged).1 (by decide +kernel)⟩,
    ⟨hdots, (tidied_again "/my project" "/my project/..yml" hdots).1 (by decide +kernel)⟩,
    hdot, (tidied_again "" "./..yml/" hdot).2 (by decide +kernel)⟩

/-- Tidying again does not always lead to the same path. -/
theorem tidied_not_always_again :
    ¬ ∀ (root source : String) (q : Path),
      Naming.tidy (.ofString root) (.ofString root) (.ofString source) = .ok q →
      ∃ q', Naming.tidy (.ofString root) (.ofString root) q = .ok q' ∧ q'.same q = true := by
  intro h
  obtain ⟨q', hq', hsame⟩ := h "" "./..yml/" (.ofString "..yml") (by decide +kernel)
  have hagain : Naming.tidy (.ofString "") (.ofString "") (.ofString "..yml") = .ok (.ofString "...yml") := by
    decide +kernel
  rw [← Except.ok.inj (hagain.symm.trans hq')] at hsame
  exact absurd hsame (by decide +kernel)

end TestScribe
