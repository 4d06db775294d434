/-
# Paths and their components

Laws of the operations on paths in terms of components, which is all that `Path.same` looks at, and of
the pieces that a path is written with.

* `Path.IsPlain` : no piece holds a separator, as in every path that a text writes;
* `Path.EndsIn` : the last piece written is a name;
* `Path.components_parent`, `Path.components_of_after?` : parents and remainders by their components;
* `Path.IsSettled`, `Path.normalize_normalize` : what a normal form is, and that it is one for good;
* `Path.isName_append_dot`, `Path.length_withoutExtension_of_normal` : file names with an extension, and
  without it.
-/
import TestScribe.Path
import TestScribe.Proofs.Splitting

namespace TestScribe.Path

/-! ## Pieces and fillers -/

/-- A piece that is a name. -/
def IsName (piece : String) : Prop := isFiller piece = false ∧ piece ≠ ".."

theorem isFiller_iff {piece : String} : isFiller piece = true ↔ piece = "" ∨ piece = "." := by
  rw [isFiller, Bool.or_eq_true, decide_eq_true_eq, decide_eq_true_eq]

theorem isFiller_eq_false_iff {piece : String} :
    isFiller piece = false ↔ piece ≠ "" ∧ piece ≠ "." := by
  rw [isFiller, Bool.or_eq_false_iff, decide_eq_false_iff_not, decide_eq_false_iff_not]

theorem componentOf?_of_isFiller {piece : String} (h : isFiller piece) :
    componentOf? piece = none := by
  rw [componentOf?, if_pos h]

theorem componentOf?_of_name {piece : String} (hfiller : isFiller piece = false)
    (hup : piece ≠ "..") : componentOf? piece = some (.name piece) := by
  rw [componentOf?, hfiller, if_neg Bool.false_ne_true, if_neg hup]

/-- A piece that stands for something is `..` or a name. -/
theorem componentOf?_cases {piece : String} {c : Component} (h : componentOf? piece = some c) :
    isFiller piece = false ∧
      (piece = ".." ∧ c = .up ∨ piece ≠ ".." ∧ c = .name piece) := by
  rw [componentOf?] at h
  split at h
  · simp at h
  · next hfiller =>
    refine ⟨by simpa using hfiller, ?_⟩
    split at h
    · next hup =>
      cases h
      exact .inl ⟨hup, rfl⟩
    · next hup =>
      cases h
      exact .inr ⟨hup, rfl⟩

/-- A component is written as the piece that stands for it. -/
theorem text_of_componentOf? {piece : String} {c : Component} (h : componentOf? piece = some c) :
    c.text = piece := by
  rcases (componentOf?_cases h).2 with ⟨rfl, rfl⟩ | ⟨-, rfl⟩ <;> rfl

/-- Only fillers are no components. -/
theorem componentOf?_eq_none_iff {piece : String} :
    componentOf? piece = none ↔ isFiller piece = true := by
  refine ⟨fun h => ?_, componentOf?_of_isFiller⟩
  by_contra hfiller
  rw [componentOf?, if_neg hfiller] at h
  split at h <;> simp at h

/-- A name among the components is a piece. -/
theorem isName_of_mem_components {p : Path} {s : String} (h : .name s ∈ p.components) :
    IsName s ∧ s ∈ p.pieces := by
  rw [components, List.mem_append] at h
  rcases h with hanchor | hpieces
  · revert hanchor
    cases p.anchor <;> simp [Anchor.components]
  · obtain ⟨piece, hpiece, hc⟩ := List.mem_filterMap.1 hpieces
    obtain ⟨hfiller, ⟨-, h⟩ | ⟨hup, h⟩⟩ := componentOf?_cases hc
    · cases h
    · cases h
      exact ⟨⟨hfiller, hup⟩, hpiece⟩

theorem root_notMem_filterMap (pieces : List String) : .root ∉ pieces.filterMap componentOf? := by
  intro h
  obtain ⟨piece, -, hpiece⟩ := List.mem_filterMap.1 h
  rcases (componentOf?_cases hpiece).2 with ⟨-, hup⟩ | ⟨-, hname⟩
  · cases hup
  · cases hname

/-- A path starts at the top at most. -/
theorem root_notMem_tail (p : Path) : .root ∉ p.components.tail := by
  obtain ⟨anchor, pieces⟩ := p
  cases anchor with
  | root => exact root_notMem_filterMap pieces
  | here => exact root_notMem_filterMap pieces
  | none => exact fun h => root_notMem_filterMap pieces (List.mem_of_mem_tail h)

/-- The top comes first, if at all, in any leading part of a path. -/
theorem root_notMem_tail_of_components_eq {p : Path} {front rest : List Component}
    (h : p.components = front ++ rest) : .root ∉ front.tail := by
  intro hmem
  apply p.root_notMem_tail
  rw [h]
  exact (List.sublist_append_left front rest).tail.subset hmem

/-- A path whose first component is the top starts there. -/
theorem anchor_of_components {p : Path} {rest : List Component} (h : p.components = .root :: rest) :
    p.anchor = .root := by
  obtain ⟨anchor, pieces⟩ := p
  cases anchor with
  | root => rfl
  | here => cases h
  | none =>
    have hroot : Component.root ∈ pieces.filterMap componentOf? := by
      rw [show pieces.filterMap componentOf? = _ from h]
      exact List.mem_cons_self
    exact absurd hroot (root_notMem_filterMap pieces)

/-- Names stand for themselves. -/
theorem filterMap_names {names : List String} (h : ∀ name ∈ names, IsName name) :
    names.filterMap componentOf? = names.map Component.name := by
  rw [← List.filterMap_eq_map]
  exact List.filterMap_congr fun name hname => componentOf?_of_name (h name hname).1 (h name hname).2

theorem trimEnd_concat (pieces : List String) (last : String) :
    trimEnd (pieces ++ [last]) = if isFiller last then trimEnd pieces else pieces ++ [last] := by
  rw [trimEnd, List.reverse_append, List.reverse_singleton, List.singleton_append,
    List.dropWhile_cons]
  split
  · rfl
  · simp

/-- Only pieces at the end are trimmed. -/
theorem trimEnd_isPrefix (pieces : List String) : trimEnd pieces <+: pieces := by
  have hsuffix : pieces.reverse.dropWhile isFiller <:+ pieces.reverse := List.dropWhile_suffix _
  rw [← List.reverse_prefix, List.reverse_reverse] at hsuffix
  exact hsuffix

/-- Fillers at the end stand for nothing. -/
theorem filterMap_trimEnd (pieces : List String) :
    (trimEnd pieces).filterMap componentOf? = pieces.filterMap componentOf? := by
  induction pieces using List.reverseRecOn with
  | nil => rfl
  | append_singleton pieces last ih =>
    rw [trimEnd_concat]
    split
    · next hfiller => simp [ih, componentOf?_of_isFiller hfiller]
    · rfl

/-- Without the fillers at its end, a list of pieces ends in one that stands for something. -/
theorem trimEnd_eq_nil_or (pieces : List String) :
    trimEnd pieces = [] ∨ ∃ before last, trimEnd pieces = before ++ [last] ∧ isFiller last = false := by
  induction pieces using List.reverseRecOn with
  | nil => exact .inl rfl
  | append_singleton pieces last ih =>
    rw [trimEnd_concat]
    split
    · exact ih
    · next hfiller => exact .inr ⟨pieces, last, rfl, by simpa using hfiller⟩

/-! ## Parents -/

/-- The start of a path is not its last component unless it is the only one. -/
theorem getLast?_components (p : Path) :
    p.components.getLast? = (p.pieces.filterMap componentOf?).getLast?.or
      (Anchor.components p.anchor).getLast? := by
  rw [components, List.getLast?_append]

/-- A path with no component but its start has no parent, or the empty one. -/
theorem parent_of_filterMap_eq_nil {p : Path} (h : p.pieces.filterMap componentOf? = []) :
    p.parent = empty := by
  have hlast : p.components.getLast? = (Anchor.components p.anchor).getLast? := by
    rw [getLast?_components, h]
    rfl
  rw [parent, parent?, hlast]
  cases p.anchor <;> rfl

/-- The last piece but for fillers stands for the last component. -/
theorem components_of_trimEnd {p : Path} {before : List String} {last : String}
    (htrim : trimEnd p.pieces = before ++ [last]) (hlast : isFiller last = false) :
    ∃ c, componentOf? last = some c ∧ p.components = components ⟨p.anchor, before⟩ ++ [c] := by
  obtain ⟨c, hc⟩ : ∃ c, componentOf? last = some c := by
    rw [← Option.isSome_iff_exists, Option.isSome_iff_ne_none, Ne, componentOf?_eq_none_iff, hlast]
    exact Bool.false_ne_true
  refine ⟨c, hc, ?_⟩
  rw [components, components, ← filterMap_trimEnd, htrim, List.filterMap_append, List.append_assoc]
  simp [hc]

/-- The parent has all components but the last. -/
theorem components_parent (p : Path) : p.parent.components = p.components.dropLast := by
  rcases trimEnd_eq_nil_or p.pieces with hnil | ⟨before, last, htrim, hlast⟩
  · have hpieces : p.pieces.filterMap componentOf? = [] := by
      rw [← filterMap_trimEnd, hnil]
      rfl
    rw [parent_of_filterMap_eq_nil hpieces, components, components, hpieces]
    cases p.anchor <;> rfl
  · obtain ⟨c, hc, hcomponents⟩ := components_of_trimEnd htrim hlast
    -- the last component is that of a piece, so the parent keeps the start
    have hparent : p.parent = { p with pieces := trimEnd before } := by
      rw [parent, parent?, hcomponents, List.getLast?_concat]
      rcases (componentOf?_cases hc).2 with ⟨-, rfl⟩ | ⟨-, rfl⟩ <;> simp [htrim]
    rw [hparent, hcomponents, List.dropLast_concat, components, components, filterMap_trimEnd]

/-- Paths are the same if they have the same components. -/
theorem same_iff {p q : Path} : p.same q = true ↔ p.components = q.components := by
  simp [same]

theorem same_parent {p q : Path} (h : p.same q) : p.parent.same q.parent := by
  rw [same_iff] at h ⊢
  rw [components_parent, components_parent, h]

/-- The file name is the last component, if that is a name. -/
theorem fileName?_eq_some_iff {p : Path} {name : String} :
    p.fileName? = some name ↔ p.components.getLast? = some (.name name) := by
  rw [fileName?]
  split
  · next hlast => rw [hlast, Option.some_inj, Option.some_inj, Component.name.injEq]
  · next hlast => exact ⟨nofun, fun h => (hlast name h).elim⟩

theorem fileName?_eq_of_same {p q : Path} (h : p.same q) : p.fileName? = q.fileName? := by
  rw [fileName?, fileName?, same_iff.1 h]

/-! ## Plain paths -/

/-- No piece holds a separator. -/
def IsPlain (p : Path) : Prop := ∀ piece ∈ p.pieces, '/' ∉ piece.toList

theorem notMem_of_mem_piecesOf {cs : List Char} {piece : String} (h : piece ∈ piecesOf cs) :
    '/' ∉ piece.toList := by
  rw [piecesOf] at h
  split at h
  · simp at h
  · obtain ⟨part, hpart, rfl⟩ := List.mem_map.1 h
    simpa using Text.notMem_of_mem_splitChars hpart

/-- Pieces that were read have no slash in them. -/
theorem isPlain_ofString (s : String) : (ofString s).IsPlain := by
  intro piece hpiece
  unfold ofString at hpiece
  split at hpiece
  · exact notMem_of_mem_piecesOf hpiece
  · split at hpiece
    · next hpieces =>
      have hmem := List.mem_cons_of_mem "." hpiece
      rw [← hpieces] at hmem
      exact notMem_of_mem_piecesOf hmem
    · exact notMem_of_mem_piecesOf hpiece

theorem notMem_of_mem_allPieces {p : Path} (hp : p.IsPlain) {piece : String}
    (h : piece ∈ p.allPieces) : '/' ∉ piece.toList := by
  unfold allPieces at h
  split at h
  · rcases List.mem_cons.1 h with rfl | h
    · decide
    · exact hp piece h
  · exact hp piece h

theorem isPlain_join {p q : Path} (hp : p.IsPlain) (hq : q.IsPlain) : (p.join q).IsPlain := by
  rw [join]
  split_ifs
  · exact hq
  · exact hq
  · exact hp
  · intro piece hpiece
    rcases List.mem_append.1 hpiece with hpiece | hpiece
    · exact hp piece hpiece
    · rw [List.mem_singleton.1 hpiece]
      decide
  · intro piece hpiece
    rcases List.mem_append.1 hpiece with hpiece | hpiece
    · exact hp piece (List.mem_of_mem_dropLast hpiece)
    · exact notMem_of_mem_allPieces hq hpiece
  · intro piece hpiece
    rcases List.mem_append.1 hpiece with hpiece | hpiece
    · exact hp piece hpiece
    · exact notMem_of_mem_allPieces hq hpiece

theorem isPlain_child {p : Path} (hp : p.IsPlain) (name : String) : (p.child name).IsPlain :=
  isPlain_join hp (isPlain_ofString name)

/-- The file name of a plain path holds no separator. -/
theorem notMem_of_fileName? {p : Path} (hp : p.IsPlain) {name : String}
    (h : p.fileName? = some name) : '/' ∉ name.toList := by
  have hmem := List.mem_of_getLast? (fileName?_eq_some_iff.1 h)
  exact hp name (isName_of_mem_components hmem).2

theorem isPlain_parent {p : Path} (h : p.IsPlain) : p.parent.IsPlain := by
  rw [parent, parent?]
  split
  · exact fun _ hpiece => absurd hpiece List.not_mem_nil
  · exact fun _ hpiece => absurd hpiece List.not_mem_nil
  · exact fun _ hpiece => absurd hpiece List.not_mem_nil
  · intro piece hpiece
    have hpiece := List.mem_of_mem_dropLast ((trimEnd_isPrefix _).subset hpiece)
    exact h piece ((trimEnd_isPrefix _).subset hpiece)

/-! ## The last piece -/

/-- The last piece written is a name, the given one. -/
def EndsIn (p : Path) (name : String) : Prop :=
  p.allPieces.getLast? = some name ∧ IsName name

/-- The last piece is the name that a path ends in. -/
theorem EndsIn.pieces_eq {p : Path} {name : String} (h : p.EndsIn name) :
    p.pieces = p.pieces.dropLast ++ [name] := by
  obtain ⟨hlast, hfiller, -⟩ := h
  have hpieces : p.pieces.getLast? = some name := by
    unfold allPieces at hlast
    split at hlast
    · cases hp : p.pieces with
      | nil =>
        rw [hp] at hlast
        cases hlast
        simp [isFiller] at hfiller
      | cons piece rest =>
        rw [hp, List.getLast?_cons_cons] at hlast
        exact hlast
    · exact hlast
  obtain ⟨before, hbefore⟩ := List.getLast?_eq_some_iff.1 hpieces
  rw [hbefore, List.dropLast_concat]

theorem EndsIn.trimEnd_eq {p : Path} {name : String} (h : p.EndsIn name) :
    trimEnd p.pieces = p.pieces := by
  rw [h.pieces_eq, trimEnd_concat, h.2.1, if_neg Bool.false_ne_true]

theorem EndsIn.components_eq {p : Path} {name : String} (h : p.EndsIn name) :
    p.components = ({ p with pieces := p.pieces.dropLast } : Path).components ++ [.name name] := by
  rw [components, components, h.pieces_eq, List.filterMap_append, List.dropLast_concat,
    List.append_assoc]
  simp [componentOf?_of_name h.2.1 h.2.2]

theorem EndsIn.fileName?_eq {p : Path} {name : String} (h : p.EndsIn name) :
    p.fileName? = some name := by
  rw [fileName?_eq_some_iff, h.components_eq, List.getLast?_concat]

theorem getLast?_allPieces_append (anchor : Anchor) (before : List String) {pieces : List String}
    (h : pieces ≠ []) :
    (allPieces ⟨anchor, before ++ pieces⟩).getLast? = pieces.getLast? := by
  cases anchor with
  | here => exact List.getLast?_append_of_ne_nil ("." :: before) h
  | root => exact List.getLast?_append_of_ne_nil before h
  | none => exact List.getLast?_append_of_ne_nil before h

/-- A relative path that has pieces ends what it is joined to. -/
theorem getLast?_allPieces_join {p q : Path} (habsolute : q.isAbsolute = false)
    (hq : q.allPieces ≠ []) : (p.join q).allPieces.getLast? = q.allPieces.getLast? := by
  rw [join, habsolute, if_neg Bool.false_ne_true]
  split_ifs
  · rfl
  · exact getLast?_allPieces_append p.anchor _ hq
  · exact getLast?_allPieces_append p.anchor _ hq

/-- Joining the empty path leaves no name at the end that the path did not have there. -/
theorem not_endsIn_join_empty (p : Path) (name : String) : ¬ (p.join empty).EndsIn name := by
  -- A blank piece at the end is a filler; joining the empty path leaves one there.
  have hblank : ∀ before : List String, ¬ EndsIn ⟨p.anchor, before ++ [""]⟩ name := by
    rintro before ⟨hlast, hfiller, -⟩
    rw [getLast?_allPieces_append p.anchor before (by simp)] at hlast
    cases hlast
    simp [isFiller] at hfiller
  have hnone : ¬ empty.EndsIn name := by simp [EndsIn, empty, allPieces]
  rw [join, if_neg (by simp [empty, isAbsolute])]
  split_ifs with hempty hpieces hend
  · exact hnone
  · rw [Bool.or_eq_true, Bool.and_eq_true, decide_eq_true_eq, decide_eq_true_eq,
      decide_eq_true_eq] at hend
    rcases hend with ⟨hanchor, hnil⟩ | hlast
    · simp [EndsIn, allPieces, hanchor, hnil]
    · obtain ⟨before, hbefore⟩ := List.getLast?_eq_some_iff.1 hlast
      have hp : p = ⟨p.anchor, before ++ [""]⟩ := by rw [← hbefore]
      rw [hp]
      exact hblank before
  · exact hblank p.pieces
  · exact absurd rfl hpieces
  · exact absurd rfl hpieces

theorem ofString_of_plain {name : String} (hplain : '/' ∉ name.toList) (hne : name ≠ "")
    (hdot : name ≠ ".") : ofString name = ⟨.none, [name]⟩ := by
  have hchars : name.toList ≠ [] := by simpa using hne
  have hpieces : piecesOf name.toList = [name] := by
    rw [piecesOf, if_neg (by simpa using hne), Text.splitChars_of_notMem hplain]
    simp
  unfold ofString
  split
  · next hslash => exact absurd (by rw [hslash]; simp) hplain
  · rw [hpieces]
    split
    · next h =>
      cases h
      exact absurd rfl hdot
    · rfl

/-- The pieces of a written path are those of its text, without a separator at the start. -/
theorem allPieces_ofString (s : String) :
    ∃ cs, (s.toList = '/' :: cs ∨ s.toList = cs) ∧ (ofString s).allPieces = piecesOf cs := by
  unfold ofString
  split
  · next rest hrest => exact ⟨rest, .inl hrest, rfl⟩
  · refine ⟨s.toList, .inr rfl, ?_⟩
    split
    · next hpieces => exact hpieces.symm
    · rfl

/-- A text with more than dots in it ends names only. -/
theorem isName_append {more : String} (hmore : ∃ c ∈ more.toList, c ≠ '.') (front : String) :
    IsName (front ++ more) := by
  obtain ⟨c, hc, hdot⟩ := hmore
  have hmem : c ∈ (front ++ more).toList := by
    rw [String.toList_append, List.mem_append]
    exact .inr hc
  rw [IsName, isFiller_eq_false_iff]
  refine ⟨⟨?_, ?_⟩, ?_⟩
  · intro h
    rw [h] at hmem
    simp at hmem
  · intro h
    rw [h] at hmem
    exact hdot (by simpa using hmem)
  · intro h
    rw [h] at hmem
    exact hdot (by simpa using hmem)

/-- A text without separators, with more than dots in it, ends the last piece of the path whose text it
ends. -/
theorem endsIn_ofString_append (text : String) {more : String} (hplain : '/' ∉ more.toList)
    (hmore : ∃ c ∈ more.toList, c ≠ '.') : ∃ front, (ofString (text ++ more)).EndsIn (front ++ more) := by
  have hname := isName_append hmore
  obtain ⟨c, hc, -⟩ := hmore
  -- the text ends in `more` also when the separator at the start is left out
  obtain ⟨all, hall, hpieces⟩ := allPieces_ofString (text ++ more)
  obtain ⟨cs, rfl⟩ : ∃ cs, all = cs ++ more.toList := by
    rw [String.toList_append] at hall
    rcases hall with hall | rfl
    · cases htext : text.toList with
      | nil =>
        rw [htext, List.nil_append] at hall
        rw [hall] at hplain
        exact absurd List.mem_cons_self hplain
      | cons first rest =>
        rw [htext] at hall
        cases hall
        exact ⟨rest, rfl⟩
    · exact ⟨_, rfl⟩
  obtain ⟨parts, last, -, hsplit⟩ := Text.splitChars_concat hplain cs
  refine ⟨String.ofList last, ?_, hname _⟩
  have hempty : (cs ++ more.toList).isEmpty = false := by
    rw [List.isEmpty_eq_false_iff_exists_mem]
    exact ⟨c, List.mem_append_right cs hc⟩
  rw [hpieces, piecesOf, hempty, if_neg Bool.false_ne_true, hsplit]
  simp

theorem endsIn_extend (p : Path) {more : String} (hplain : '/' ∉ more.toList)
    (hmore : ∃ c ∈ more.toList, c ≠ '.') : ∃ front, (p.extend more).EndsIn (front ++ more) :=
  endsIn_ofString_append p.text hplain hmore

theorem endsIn_child_append (p : Path) (text : String) {more : String} (hplain : '/' ∉ more.toList)
    (hmore : ∃ c ∈ more.toList, c ≠ '.') : ∃ front, (p.child (text ++ more)).EndsIn (front ++ more) := by
  obtain ⟨front, hlast, hname⟩ := endsIn_ofString_append text hplain hmore
  refine ⟨front, ?_, hname⟩
  rw [child, ← hlast]
  cases habsolute : (ofString (text ++ more)).isAbsolute with
  | true => rw [join, if_pos habsolute]
  | false =>
    apply getLast?_allPieces_join habsolute
    intro hnil
    rw [hnil] at hlast
    cases hlast

theorem EndsIn.ne_empty {p : Path} {name : String} (h : p.EndsIn name) : p ≠ empty := by
  rintro rfl
  cases h.1

/-- What is written after a path by a plain name can end in this name only. -/
theorem EndsIn.of_child {p : Path} {name last : String} (hplain : '/' ∉ name.toList)
    (h : (p.child name).EndsIn last) : last = name := by
  by_cases hempty : name = ""
  · rw [child, hempty] at h
    exact absurd h (not_endsIn_join_empty p last)
  have hof : (ofString name).isAbsolute = false ∧ (ofString name).allPieces = [name] := by
    by_cases hdot : name = "."
    · rw [hdot]
      decide
    · rw [ofString_of_plain hplain hempty hdot]
      exact ⟨rfl, rfl⟩
  have hlast := h.1
  rw [child, getLast?_allPieces_join hof.1 (by simp [hof.2]), hof.2] at hlast
  simpa using hlast.symm

theorem filterMap_allPieces (q : Path) :
    q.allPieces.filterMap componentOf? = q.pieces.filterMap componentOf? := by
  unfold allPieces
  split
  · rw [List.filterMap_cons_none (componentOf?_of_isFiller (by decide))]
  · rfl

/-- A relative path adds the components of its pieces. -/
theorem components_join {p q : Path} (hp : p ≠ empty) (hq : q.isAbsolute = false) :
    (p.join q).components = p.components ++ q.pieces.filterMap componentOf? := by
  have happend : ∀ before more : List String, components ⟨p.anchor, before ++ more⟩
      = components ⟨p.anchor, before⟩ ++ more.filterMap componentOf? := by
    intro before more
    rw [components, components, List.filterMap_append, List.append_assoc]
  have hblank : [""].filterMap componentOf? = [] := by decide
  rw [join, hq, if_neg Bool.false_ne_true, if_neg hp, ← filterMap_allPieces q]
  split_ifs with hnil _ hlast
  · rw [hnil, List.filterMap_nil, List.append_nil]
  · rw [hnil, List.filterMap_nil, happend, hblank]
  · -- the blank piece at the end gives way to the new ones
    obtain ⟨before, hbefore⟩ := List.getLast?_eq_some_iff.1 hlast
    have hp : p.components = components ⟨p.anchor, before⟩ := by
      calc p.components = components ⟨p.anchor, before ++ [""]⟩ := by rw [← hbefore]
        _ = components ⟨p.anchor, before⟩ := by rw [happend, hblank, List.append_nil]
    rw [happend, hbefore, List.dropLast_concat, hp]
  · exact happend p.pieces q.allPieces

/-- A child has one more component, if the name is one. -/
theorem components_child {p : Path} {name : String} (hplain : '/' ∉ name.toList) (hne : name ≠ "")
    (hdot : name ≠ ".") :
    (p.child name).components = p.components ++ (componentOf? name).toList := by
  have hpiece : [name].filterMap componentOf? = (componentOf? name).toList := by
    cases h : componentOf? name <;> simp [h]
  rw [child, ofString_of_plain hplain hne hdot]
  by_cases hp : p = empty
  · rw [join, if_neg (by simp [isAbsolute]), if_pos hp, hp, components, hpiece]
    rfl
  · rw [components_join hp rfl, hpiece]

/-- A child with a name ends in it. -/
theorem endsIn_child {p : Path} {name : String} (hplain : '/' ∉ name.toList)
    (hname : IsName name) : (p.child name).EndsIn name := by
  obtain ⟨hne, hdot⟩ := isFiller_eq_false_iff.1 hname.1
  refine ⟨?_, hname⟩
  rw [child, ofString_of_plain hplain hne hdot,
    getLast?_allPieces_join rfl (by simp [allPieces])]
  rfl

/-- A filler after a path adds no component, unless the path is empty. -/
theorem components_child_of_isFiller {p : Path} (hp : p ≠ empty) {name : String}
    (hfiller : isFiller name) : (p.child name).components = p.components := by
  rcases isFiller_iff.1 hfiller with rfl | rfl
  · rw [child, components_join hp (by decide)]
    exact List.append_nil _
  · rw [child, components_join hp (by decide)]
    exact List.append_nil _

/-! ## Normal forms -/

/-- Pieces, held backwards, in which no `..` can be taken together with a name: all are names, but the
first one may be `..`. -/
def IsSettled (done : List String) : Prop :=
  ∃ names start, done = names ++ start ∧ (∀ name ∈ names, IsName name) ∧ (start = [] ∨ start = [".."])

/-- Going one component further keeps the names settled. -/
theorem isSettled_settle {done : List String} (hdone : IsSettled done) {c : Component}
    (hc : ∀ s, c = .name s → IsName s) : IsSettled (settle done c) := by
  obtain ⟨names, start, rfl, hnames, hstart⟩ := hdone
  cases c with
  | root | here => exact ⟨names, start, rfl, hnames, hstart⟩
  | name s =>
    refine ⟨s :: names, start, rfl, ?_, hstart⟩
    rw [List.forall_mem_cons]
    exact ⟨hc s rfl, hnames⟩
  | up =>
    cases names with
    | cons name names =>
      exact ⟨names, start, rfl, fun n hn => hnames n (List.mem_cons_of_mem name hn), hstart⟩
    | nil =>
      rcases hstart with rfl | rfl
      · exact ⟨[], [".."], rfl, by simp, .inr rfl⟩
      · exact ⟨[], [], rfl, by simp, .inl rfl⟩

theorem isSettled_foldl {cs : List Component} (hcs : ∀ s, .name s ∈ cs → IsName s)
    {done : List String} (hdone : IsSettled done) : IsSettled (cs.foldl settle done) := by
  induction cs generalizing done with
  | nil => exact hdone
  | cons c cs ih =>
    apply ih fun s hs => hcs s (List.mem_cons_of_mem c hs)
    exact isSettled_settle hdone fun s hs => hcs s (hs ▸ List.mem_cons_self)

theorem foldl_settle_names (names : List String) (done : List String) :
    (names.map Component.name).foldl settle done = names.reverse ++ done := by
  induction names generalizing done with
  | nil => rfl
  | cons name names ih =>
    rw [List.map_cons, List.foldl_cons, ih, List.reverse_cons, List.append_assoc]
    rfl

/-- Settled pieces are what they settle to. -/
theorem foldl_settle_of_isSettled {done : List String} (h : IsSettled done) :
    (done.reverse.filterMap componentOf?).foldl settle [] = done := by
  obtain ⟨names, start, rfl, hnames, hstart⟩ := h
  have hfilter : names.reverse.filterMap componentOf? = names.reverse.map Component.name :=
    filterMap_names fun name hname => hnames name (List.mem_reverse.1 hname)
  have hup : componentOf? ".." = some .up := by decide
  rw [List.reverse_append, List.filterMap_append, hfilter, List.foldl_append, foldl_settle_names,
    List.reverse_reverse]
  rcases hstart with rfl | rfl
  · rfl
  · simp [hup, settle]

theorem isSettled_normalize (p : Path) : IsSettled (p.components.foldl settle []) :=
  isSettled_foldl (fun _ hs => (isName_of_mem_components hs).1) ⟨[], [], rfl, by simp, .inl rfl⟩

/-- Settled pieces are in normal form. -/
theorem normalize_of_isSettled {done : List String} (h : IsSettled done) {anchor : Anchor}
    (hanchor : anchor ≠ .here) : normalize ⟨anchor, done.reverse⟩ = ⟨anchor, done.reverse⟩ := by
  have hfold := foldl_settle_of_isSettled h
  cases anchor with
  | root =>
    show Path.mk .root ((done.reverse.filterMap componentOf?).foldl settle []).reverse = _
    rw [hfold]
  | none =>
    show Path.mk .none ((done.reverse.filterMap componentOf?).foldl settle []).reverse = _
    rw [hfold]
  | here => exact absurd rfl hanchor

/-- Normalizing twice is normalizing once. -/
theorem normalize_normalize (p : Path) : p.normalize.normalize = p.normalize := by
  apply normalize_of_isSettled (isSettled_normalize p)
  split <;> simp

/-- Settling brings in nothing but steps upwards. -/
theorem mem_foldl_settle {cs : List Component} {done : List String} {piece : String}
    (h : piece ∈ cs.foldl settle done) : piece ∈ done ∨ piece = ".." ∨ .name piece ∈ cs := by
  induction cs generalizing done with
  | nil => exact .inl h
  | cons c cs ih =>
    rcases ih h with hsettle | hup | hname
    · cases c with
      | root | here => exact .inl hsettle
      | name s =>
        rcases List.mem_cons.1 hsettle with rfl | hdone
        · exact .inr (.inr List.mem_cons_self)
        · exact .inl hdone
      | up =>
        cases done with
        | nil => exact .inr (.inl (List.mem_singleton.1 hsettle))
        | cons d done => exact .inl (List.mem_cons_of_mem d hsettle)
    · exact .inr (.inl hup)
    · exact .inr (.inr (List.mem_cons_of_mem c hname))

theorem isPlain_normalize {p : Path} (h : p.IsPlain) : p.normalize.IsPlain := by
  intro piece hpiece
  rcases mem_foldl_settle (List.mem_reverse.1 hpiece) with hnil | rfl | hname
  · simp at hnil
  · decide
  · exact h piece (isName_of_mem_components hname).2

/-! ## Below another path -/

/-- What is taken off comes first, and the rest is left. -/
theorem takeOff_eq_some {cs : List Component} {pieces rest : List String}
    (h : takeOff cs pieces = some rest) :
    pieces.filterMap componentOf? = cs ++ rest.filterMap componentOf? := by
  induction pieces generalizing cs with
  | nil =>
    cases cs with
    | nil =>
      cases h
      rfl
    | cons c cs => simp [takeOff] at h
  | cons piece pieces ih =>
    cases cs with
    | nil =>
      cases h
      rfl
    | cons c cs =>
      rw [takeOff] at h
      cases hc : componentOf? piece with
      | none =>
        rw [hc] at h
        rw [List.filterMap_cons_none hc, ih h]
      | some d =>
        rw [hc] at h
        dsimp only at h
        split at h
        · next hcd => rw [List.filterMap_cons_some hc, ih h, hcd, List.cons_append]
        · simp at h

/-- Components that come first can be taken off. -/
theorem exists_takeOff {cs : List Component} {pieces : List String}
    (h : cs <+: pieces.filterMap componentOf?) : ∃ rest, takeOff cs pieces = some rest := by
  induction pieces generalizing cs with
  | nil =>
    cases cs with
    | nil => exact ⟨[], rfl⟩
    | cons c cs => simp at h
  | cons piece pieces ih =>
    cases cs with
    | nil => exact ⟨piece :: pieces, rfl⟩
    | cons c cs =>
      rw [takeOff]
      cases hc : componentOf? piece with
      | none =>
        rw [List.filterMap_cons_none hc] at h
        exact ih h
      | some d =>
        rw [List.filterMap_cons_some hc, List.cons_prefix_cons] at h
        dsimp only
        rw [if_pos h.1]
        exact ih h.2

theorem filterMap_dropWhile_isFiller (pieces : List String) :
    (pieces.dropWhile isFiller).filterMap componentOf? = pieces.filterMap componentOf? := by
  induction pieces with
  | nil => rfl
  | cons piece pieces ih =>
    rw [List.dropWhile_cons]
    split
    · next hfiller => rw [ih, List.filterMap_cons_none (componentOf?_of_isFiller hfiller)]
    · rfl

/-- What follows a path has the remaining components. -/
theorem components_of_after? {base p q : Path} (h : base.after? p = some q) :
    p.components = base.components ++ q.components := by
  have hrest : ∀ pieces : List String,
      (Path.mk .none (trimEnd (pieces.dropWhile isFiller))).components
        = pieces.filterMap componentOf? := by
    intro pieces
    rw [components, filterMap_trimEnd, filterMap_dropWhile_isFiller]
    rfl
  simp only [after?] at h
  split at h
  · next hnil =>
    cases h
    rw [hnil, List.nil_append, components, components, filterMap_trimEnd]
  · obtain ⟨pieces, hpieces, rfl⟩ := Option.map_eq_some_iff.1 h
    rw [hrest]
    split at hpieces
    · next hbase hanchor =>
      rw [hbase, components, hanchor, takeOff_eq_some hpieces]
      rfl
    · next hbase hanchor =>
      rw [hbase, components, hanchor, takeOff_eq_some hpieces]
      rfl
    · next hanchor =>
      rw [components, hanchor, takeOff_eq_some hpieces]
      rfl
    · simp at hpieces

/-- Something follows a path wherever its components come first. -/
theorem exists_after? {base p : Path} (h : base.components <+: p.components) :
    ∃ q, base.after? p = some q := by
  cases hbase : base.components with
  | nil => exact ⟨{ p with pieces := trimEnd p.pieces }, by simp [after?, hbase]⟩
  | cons c cs =>
    rw [hbase, components] at h
    cases hanchor : p.anchor with
    | root =>
      rw [hanchor] at h
      obtain ⟨rfl, hprefix⟩ := List.cons_prefix_cons.1 h
      obtain ⟨rest, hrest⟩ := exists_takeOff hprefix
      simp [after?, hbase, hanchor, hrest]
    | here =>
      rw [hanchor] at h
      obtain ⟨rfl, hprefix⟩ := List.cons_prefix_cons.1 h
      obtain ⟨rest, hrest⟩ := exists_takeOff hprefix
      simp [after?, hbase, hanchor, hrest]
    | none =>
      rw [hanchor] at h
      obtain ⟨rest, hrest⟩ := exists_takeOff h
      cases c <;> simp [after?, hbase, hanchor, hrest]

/-- What follows a path has the components that follow its own. -/
theorem exists_after?_of_components_eq {base p : Path} {rest : List Component}
    (h : p.components = base.components ++ rest) : ∃ q, base.after? p = some q ∧ q.components = rest := by
  obtain ⟨q, hq⟩ := exists_after? ⟨rest, h.symm⟩
  rw [components_of_after? hq] at h
  exact ⟨q, hq, List.append_cancel_left h⟩

/-- Nothing follows a path only in the form of the empty path. -/
theorem eq_empty_of_after? {base p q : Path} (h : base.after? p = some q)
    (hq : q.components = []) : q = empty := by
  obtain ⟨pieces, hpieces⟩ : ∃ pieces, q.pieces = trimEnd pieces := by
    simp only [after?] at h
    split at h
    · cases h
      exact ⟨_, rfl⟩
    · obtain ⟨pieces, -, rfl⟩ := Option.map_eq_some_iff.1 h
      exact ⟨_, rfl⟩
  obtain ⟨hanchor, hfilter⟩ := List.append_eq_nil_iff.1 hq
  have hnil : q.pieces = [] := by
    rcases trimEnd_eq_nil_or pieces with hnil | ⟨before, last, htrim, hlast⟩
    · rw [hpieces, hnil]
    · rw [hpieces, htrim, List.filterMap_append, List.append_eq_nil_iff] at hfilter
      have hnone := List.filterMap_eq_nil_iff.1 hfilter.2 last (by simp)
      rw [componentOf?_eq_none_iff, hlast] at hnone
      exact absurd hnone Bool.false_ne_true
  obtain ⟨anchor, pieces⟩ := q
  cases hnil
  cases anchor with
  | none => rfl
  | root | here => simp [Anchor.components] at hanchor

/-- Paths with the same components have remainders with the same components. -/
theorem after?_of_components_eq {base p p' q : Path} (hp : p.components = p'.components)
    (h : base.after? p = some q) :
    ∃ q', base.after? p' = some q' ∧ q.components = q'.components := by
  obtain ⟨q', hq', hcomponents⟩ := exists_after?_of_components_eq (hp ▸ components_of_after? h)
  exact ⟨q', hq', hcomponents.symm⟩

/-- The path without its extension, where the last piece written is a name. -/
theorem EndsIn.components_withoutExtension {p : Path} {name : String} (h : p.EndsIn name) :
    p.withoutExtension.components
      = p.components.dropLast ++ (componentOf? (bareName name)).toList := by
  have hdrop : p.components.dropLast
      = ({ p with pieces := p.pieces.dropLast } : Path).components := by
    rw [h.components_eq, List.dropLast_concat]
  rw [withoutExtension, h.fileName?_eq, hdrop]
  simp only [h.trimEnd_eq, if_true, components, List.filterMap_append, List.append_assoc]
  cases hbare : componentOf? (bareName name) <;> simp [hbare]

/-! ## File names -/

/-- A file name is the last piece but for fillers. -/
theorem exists_trimEnd_of_fileName? {p : Path} {name : String} (h : p.fileName? = some name) :
    IsName name ∧ ∃ before, trimEnd p.pieces = before ++ [name] ∧
      p.components = components ⟨p.anchor, before⟩ ++ [.name name] := by
  have hlast := fileName?_eq_some_iff.1 h
  refine ⟨(isName_of_mem_components (List.mem_of_getLast? hlast)).1, ?_⟩
  rcases trimEnd_eq_nil_or p.pieces with hnil | ⟨before, last, htrim, hfiller⟩
  · rw [getLast?_components, ← filterMap_trimEnd, hnil] at hlast
    revert hlast
    cases p.anchor <;> simp [Anchor.components]
  · obtain ⟨c, hc, hcomponents⟩ := components_of_trimEnd htrim hfiller
    rw [hcomponents, List.getLast?_concat, Option.some_inj] at hlast
    rcases (componentOf?_cases hc).2 with ⟨-, hup⟩ | ⟨-, hname⟩
    · rw [hup] at hlast
      cases hlast
    · rw [hname] at hlast hcomponents
      cases hlast
      exact ⟨before, htrim, hcomponents⟩

/-- The name in place of the last one is what remains of it without its extension. -/
theorem components_withoutExtension {p : Path} {name : String} (h : p.fileName? = some name) :
    ∃ bare, (bare = bareName name ∨ bare = (cutName name).1) ∧
      p.withoutExtension.components = p.components.dropLast ++ (componentOf? bare).toList := by
  obtain ⟨-, before, htrim, hcomponents⟩ := exists_trimEnd_of_fileName? h
  refine ⟨if trimEnd p.pieces = p.pieces then bareName name else (cutName name).1, ?_, ?_⟩
  · split
    · exact .inl rfl
    · exact .inr rfl
  · rw [withoutExtension, h, hcomponents, List.dropLast_concat]
    simp only [htrim, List.dropLast_concat, components, List.filterMap_append, List.append_assoc]
    rfl

/-- Without its extension a path is not longer. -/
theorem length_withoutExtension_le (p : Path) :
    p.withoutExtension.components.length ≤ p.components.length := by
  cases hname : p.fileName? with
  | none => rw [withoutExtension, hname]
  | some name =>
    obtain ⟨bare, -, hcomponents⟩ := components_withoutExtension hname
    have hpositive := List.length_pos_of_mem (List.mem_of_getLast? (fileName?_eq_some_iff.1 hname))
    have hbare := Option.length_toList_le (o := componentOf? bare)
    rw [hcomponents, List.length_append, List.length_dropLast]
    omega

theorem drop_length_takeWhile {α : Type} (f : α → Bool) (l : List α) :
    l.drop (l.takeWhile f).length = l.dropWhile f := by
  induction l with
  | nil => rfl
  | cons a l ih =>
    rw [List.takeWhile_cons, List.dropWhile_cons]
    split
    · exact ih
    · rfl

theorem mem_of_mem_cutName {name : String} {c : Char} (h : c ∈ (cutName name).1.toList) :
    c ∈ name.toList := by
  simp only [cutName] at h
  split at h
  · exact h
  · next hdrop =>
    rw [String.toList_ofList, List.mem_reverse] at h
    have hmem : c ∈ name.toList.reverse.drop
        (name.toList.reverse.takeWhile (· ≠ '.')).length := by
      rw [hdrop]
      exact List.mem_cons_of_mem _ h
    exact List.mem_reverse.1 (List.mem_of_mem_drop hmem)
  · exact h

theorem mem_of_mem_extension {name e : String} (h : (cutName name).2 = some e) {c : Char}
    (hc : c ∈ e.toList) : c ∈ name.toList := by
  simp only [cutName] at h
  split at h
  · simp at h
  · cases h
    rw [String.toList_ofList, List.mem_reverse] at hc
    exact List.mem_reverse.1 ((List.takeWhile_sublist _).mem hc)
  · simp at h

/-- An extension has no dot in it. -/
theorem notMem_extension {name e : String} (h : (cutName name).2 = some e) : '.' ∉ e.toList := by
  simp only [cutName] at h
  split at h
  · simp at h
  · cases h
    rw [String.toList_ofList, List.mem_reverse]
    exact fun hmem => absurd (List.mem_takeWhile_imp hmem) (by decide)
  · simp at h

/-- A file name without a dot is all stem. -/
theorem cutName_of_notMem {name : String} (h : '.' ∉ name.toList) : (cutName name).1 = name := by
  have hdrop : name.toList.reverse.dropWhile (· ≠ '.') = [] := by
    rw [List.dropWhile_eq_nil_iff]
    intro c hc
    simpa using ne_of_mem_of_not_mem (List.mem_reverse.1 hc) h
  simp only [cutName, drop_length_takeWhile, hdrop]

/-- A file name without an extension is all stem. -/
theorem cutName_of_snd_eq_none {name : String} (h : (cutName name).2 = none) :
    (cutName name).1 = name := by
  simp only [cutName] at h ⊢
  split at h
  · rfl
  · simp at h
  · rfl

theorem bareName_of_snd_eq_none {name : String} (h : (cutName name).2 = none) :
    bareName name = name := by
  rw [bareName]
  split
  · next hcut => simp [hcut] at h
  · next hcut =>
    have hall := cutName_of_snd_eq_none h
    rwa [hcut] at hall

theorem bareName_of_stem_ne {name : String} (h : (cutName name).1 ≠ ".") : bareName name = (cutName name).1 := by
  rw [bareName]
  split
  · next hcut =>
    rw [hcut] at h ⊢
    exact if_neg h
  · next hcut => rw [hcut]

theorem cutName_fst_ne_empty {name : String} (h : name ≠ "") : (cutName name).1 ≠ "" := by
  simp only [cutName]
  split
  · exact h
  · next before hne _ =>
    rw [Ne, String.ofList_eq_empty_iff, List.reverse_eq_nil_iff]
    exact fun hnil => hne (by rw [hnil])
  · exact h

/-- What remains of a file name without its extension is never a filler. -/
theorem isFiller_bareName {name : String} (h : IsName name) : isFiller (bareName name) = false := by
  have hname := isFiller_eq_false_iff.1 h.1
  rw [isFiller_eq_false_iff]
  have hstem := cutName_fst_ne_empty hname.1
  rw [bareName]
  split
  · next stem _ hcut =>
    rw [hcut] at hstem
    split
    · decide
    · next hdot => exact ⟨hstem, hdot⟩
  · next stem hcut =>
    have hall := cutName_of_snd_eq_none (congrArg Prod.snd hcut)
    rw [hcut] at hall
    rwa [show stem = name from hall]

theorem notMem_bareName {name : String} (h : '/' ∉ name.toList) : '/' ∉ (bareName name).toList := by
  have hstem : '/' ∉ (cutName name).1.toList := fun hm => h (mem_of_mem_cutName hm)
  rw [bareName]
  split
  · next hcut =>
    rw [hcut] at hstem
    split
    · decide
    · exact hstem
  · next hcut =>
    rw [hcut] at hstem
    exact hstem

/-- Whatever follows the dot, the stem begins with what comes before it. -/
theorem prefix_cutName {front : String} (h : front ≠ "") (rest : String) :
    front.toList <+: (cutName (front ++ "." ++ rest)).1.toList := by
  have hchars : (front ++ "." ++ rest).toList.reverse
      = rest.toList.reverse ++ '.' :: front.toList.reverse := by
    simp
  -- backwards, the last dot is in the rest or it is the one after `front`
  obtain ⟨d, more, hdrop⟩ : ∃ d more, (front ++ "." ++ rest).toList.reverse.dropWhile (· ≠ '.')
      = d :: (more ++ front.toList.reverse) := by
    rw [hchars, List.dropWhile_append]
    split
    · exact ⟨'.', [], by simp⟩
    · cases rest.toList.reverse.dropWhile (· ≠ '.') with
      | nil => exact ⟨'.', [], rfl⟩
      | cons d more => exact ⟨d, more ++ ['.'], by simp⟩
  have hnil : more ++ front.toList.reverse ≠ [] := by simp [h]
  simp only [cutName, drop_length_takeWhile, hdrop]
  simp

/-- A file name is cut at its last dot, unless nothing comes before the dot. -/
theorem cutName_append_dot (front : String) {rest : String} (h : '.' ∉ rest.toList) :
    cutName (front ++ "." ++ rest) = if front = "" then ("." ++ rest, none) else (front, some rest) := by
  have hchars : (front ++ "." ++ rest).toList.reverse
      = rest.toList.reverse ++ '.' :: front.toList.reverse := by
    simp
  have hrest : ∀ c ∈ rest.toList.reverse, decide (c ≠ '.') = true := by
    intro c hc
    rw [List.mem_reverse] at hc
    exact decide_eq_true (ne_of_mem_of_not_mem hc h)
  have htake : (front ++ "." ++ rest).toList.reverse.takeWhile (· ≠ '.') = rest.toList.reverse := by
    rw [hchars, List.takeWhile_append_of_pos hrest]
    simp
  have hdrop : (front ++ "." ++ rest).toList.reverse.dropWhile (· ≠ '.')
      = '.' :: front.toList.reverse := by
    rw [hchars, List.dropWhile_append_of_pos hrest]
    simp
  rw [cutName, drop_length_takeWhile, hdrop, htake]
  by_cases hfront : front = ""
  · rw [if_pos hfront, hfront, String.empty_append]
    rfl
  · have hne : front.toList.reverse ≠ [] := by simpa using hfront
    obtain ⟨c, cs, hcs⟩ := List.exists_cons_of_ne_nil hne
    rw [if_neg hfront, hcs]
    simp only [List.reverse_reverse, String.ofList_toList, ← hcs]

/-- The extension is what follows the last dot; there is none if nothing comes before the dot. -/
theorem extension_append_dot (front : String) {rest : String} (h : '.' ∉ rest.toList) :
    (cutName (front ++ "." ++ rest)).2 = if front = "" then none else some rest := by
  rw [cutName_append_dot front h]
  split <;> rfl

/-- Something other than a dot, with a dot and an extension behind it, is a name with a stem. -/
theorem isName_append_dot {front : String} (hne : front ≠ "") (hdot : front ≠ ".") (rest : String) :
    IsName (front ++ "." ++ rest) ∧ (cutName (front ++ "." ++ rest)).1 ∉ ["", "."] := by
  obtain ⟨c, cs, hfront⟩ := List.exists_cons_of_ne_nil (l := front.toList) (by simpa using hne)
  have hchars : (front ++ "." ++ rest).toList = c :: (cs ++ '.' :: rest.toList) := by
    simp [hfront]
  have hsingle : ¬ (c = '.' ∧ cs = []) := by
    rintro ⟨rfl, rfl⟩
    exact hdot (String.toList_inj.1 hfront)
  have hprefix := prefix_cutName hne rest
  refine ⟨⟨?_, ?_⟩, ?_⟩
  · rw [isFiller_eq_false_iff, Ne, Ne, ← String.toList_inj, ← String.toList_inj, hchars]
    simp
  · intro hup
    rw [← String.toList_inj, hchars] at hup
    cases cs with
    | nil => exact hsingle ⟨by simpa using congrArg List.head? hup, rfl⟩
    | cons d cs => simp at hup
  · rw [List.mem_pair]
    rintro (hstem | hstem)
    · rw [hstem, hfront] at hprefix
      simp at hprefix
    · rw [hstem, hfront] at hprefix
      simp at hprefix
      exact hsingle hprefix

/-! ## Paths in normal form -/

/-- A path in normal form has no fillers. -/
theorem exists_isSettled_of_normal {p : Path} (h : p.normalize = p) :
    p.anchor ≠ .here ∧ ∃ done, IsSettled done ∧ p.pieces = done.reverse := by
  rw [← h]
  refine ⟨?_, _, isSettled_normalize p, rfl⟩
  rw [normalize]
  dsimp only
  split <;> simp

/-- A path in normal form is made of names, but for a `..` that may be the first piece. -/
theorem exists_names_of_normal {p : Path} (h : p.normalize = p) :
    p.anchor ≠ .here ∧ ∃ ups names, (ups = [] ∨ ups = [".."]) ∧ (∀ name ∈ names, IsName name) ∧
      p.pieces = ups ++ names := by
  obtain ⟨hanchor, done, ⟨names, start, rfl, hnames, hstart⟩, hpieces⟩ :=
    exists_isSettled_of_normal h
  refine ⟨hanchor, start, names.reverse, hstart, fun name hname => hnames name (by simpa using hname), ?_⟩
  rw [hpieces, List.reverse_append]
  rcases hstart with rfl | rfl
  · rfl
  · rfl

/-- Paths with the same components have the same normal form. -/
theorem normalize_eq_of_same {p q : Path} (h : p.same q) : p.normalize = q.normalize := by
  have hroot : ∀ r : Path, r.isAbsolute = true ↔ .root ∈ r.components := by
    intro r
    have hnot : Component.root ∉ r.pieces.filterMap componentOf? := by
      rw [List.mem_filterMap]
      rintro ⟨piece, -, hpiece⟩
      unfold componentOf? at hpiece
      split_ifs at hpiece <;> simp at hpiece
    rw [components, List.mem_append, or_iff_left hnot, isAbsolute]
    cases r.anchor <;> simp [Anchor.components]
  have hcomponents := same_iff.1 h
  have habsolute : p.isAbsolute = q.isAbsolute := by
    rw [Bool.eq_iff_iff, hroot, hroot, hcomponents]
  rw [normalize, normalize, hcomponents, habsolute]

/-- Two paths in normal form are equal if they are the same. -/
theorem eq_of_same_of_normal {p q : Path} (hp : p.normalize = p) (hq : q.normalize = q)
    (h : p.same q) : p = q := by
  rw [← hp, ← hq, normalize_eq_of_same h]

/-- A file name in normal form is the last piece. -/
theorem endsIn_of_normal {p : Path} (h : p.normalize = p) {name : String}
    (hname : p.fileName? = some name) : p.EndsIn name := by
  obtain ⟨-, done, ⟨names, start, rfl, hnames, hstart⟩, hpieces⟩ := exists_isSettled_of_normal h
  have hfiller : ∀ piece ∈ p.pieces, isFiller piece = false := by
    intro piece hpiece
    rw [hpieces, List.mem_reverse, List.mem_append] at hpiece
    rcases hpiece with hpiece | hpiece
    · exact (hnames piece hpiece).1
    · rcases hstart with rfl | rfl
      · simp at hpiece
      · rw [List.mem_singleton.1 hpiece]
        decide
  have htrim : trimEnd p.pieces = p.pieces := by
    rcases List.eq_nil_or_concat p.pieces with hnil | ⟨before, last, hlast⟩
    · rw [hnil]
      rfl
    · rw [hlast, List.concat_eq_append, trimEnd_concat, hfiller last (by simp [hlast]),
        if_neg Bool.false_ne_true]
  obtain ⟨hisName, before, hbefore, -⟩ := exists_trimEnd_of_fileName? hname
  refine ⟨?_, hisName⟩
  have hp : p = ⟨p.anchor, before ++ [name]⟩ := by rw [← hbefore, htrim]
  rw [hp, getLast?_allPieces_append p.anchor before (by simp)]
  rfl

/-- A name whose stem is a filler has an extension, and reads as `..` without it. -/
theorem bareName_of_filler {name : String} (h : IsName name) (hstem : (cutName name).1 ∈ ["", "."]) :
    bareName name = ".." := by
  have hne : name ≠ "" := by
    rintro rfl
    exact absurd h.1 (by decide)
  have hdot : (cutName name).1 = "." := by
    rw [List.mem_pair] at hstem
    exact hstem.resolve_left (cutName_fst_ne_empty hne)
  cases hcut : (cutName name).2 with
  | none =>
    rw [cutName_of_snd_eq_none hcut] at hdot
    exact absurd h.1 (by rw [hdot]; decide)
  | some e =>
    have hname : cutName name = (".", some e) := Prod.ext hdot hcut
    rw [bareName, hname]
    rfl

/-- The extension is all that goes from a file name in normal form, unless its stem is a filler: then
a component stays in its place. -/
theorem length_withoutExtension_of_normal {p : Path} (h : p.normalize = p)
    (hstem : p.stem?.getD "" ∈ ["", "."]) :
    p.withoutExtension.components.length = p.components.length := by
  cases hname : p.fileName? with
  | none => rw [withoutExtension, hname]
  | some name =>
    have hend := endsIn_of_normal h hname
    rw [stem?, hname] at hstem
    rw [hend.components_withoutExtension, bareName_of_filler hend.2 hstem, hend.components_eq]
    simp [show componentOf? ".." = some .up from rfl]

/-- A path in normal form without a file name is one of four. -/
theorem components_of_normal_of_fileName?_eq_none {p : Path} (h : p.normalize = p)
    (hname : p.fileName? = none) : p.components ∈ [[], [.root], [.up], [.root, .up]] := by
  obtain ⟨hanchor, done, ⟨names, start, rfl, hnames, hstart⟩, hpieces⟩ :=
    exists_isSettled_of_normal h
  cases names with
  | cons name names =>
    obtain ⟨hfiller, hup⟩ := hnames name List.mem_cons_self
    have hlast : p.components.getLast? = some (.name name) := by
      rw [components, hpieces]
      simp [componentOf?_of_name hfiller hup]
    rw [fileName?_eq_some_iff.2 hlast] at hname
    cases hname
  | nil =>
    have hup : componentOf? ".." = some .up := by decide
    rw [components, hpieces]
    rcases hstart with rfl | rfl
    · cases ha : p.anchor <;> simp [Anchor.components]
      exact absurd ha hanchor
    · cases ha : p.anchor <;> simp [Anchor.components, hup]
      exact absurd ha hanchor

/-- What is no name comes before the names. -/
theorem mem_iff_of_append_eq {start front rest : List Component} {names : List String} {name : String}
    (hstart : ∀ s, .name s ∉ start) (h : start ++ names.map .name = front ++ .name name :: rest)
    {c : Component} (hc : ∀ s, c ≠ .name s) : c ∈ start ↔ c ∈ front := by
  rcases List.append_eq_append_iff.1 h with ⟨more, rfl, hmore⟩ | ⟨more, rfl, hmore⟩
  · rw [List.mem_append, iff_self_or]
    intro hmem
    obtain ⟨s, -, rfl⟩ := List.mem_map.1 (hmore ▸ List.mem_append_left _ hmem)
    exact absurd rfl (hc s)
  · cases more with
    | nil => rw [List.append_nil]
    | cons first more =>
      cases hmore
      exact absurd (List.mem_append_right _ List.mem_cons_self) (hstart name)

/-- The components before a name tell how a path in normal form starts. -/
theorem isAbsolute_and_head?_of_normal {p : Path} (hp : p.normalize = p) {front rest : List Component}
    {name : String} (h : p.components = front ++ .name name :: rest) :
    (p.isAbsolute = true ↔ .root ∈ front) ∧ (p.pieces.head? = some ".." ↔ .up ∈ front) := by
  obtain ⟨hanchor, ups, names, hups, hnames, hpieces⟩ := exists_names_of_normal hp
  have hhead : names.head? ≠ some ".." := fun hhead => (hnames _ (List.mem_of_head? hhead)).2 rfl
  have hup : componentOf? ".." = some .up := by decide
  rw [components, hpieces, List.filterMap_append, filterMap_names hnames, ← List.append_assoc] at h
  have hmem : ∀ {c : Component}, (∀ s, c ≠ .name s) → (_ ↔ c ∈ front) := mem_iff_of_append_eq (by
    rcases hups with rfl | rfl <;> cases p.anchor <;> simp [Anchor.components, hup]) h
  rw [isAbsolute, hpieces, ← hmem (c := .root) (by simp), ← hmem (c := .up) (by simp)]
  rcases hups with rfl | rfl <;> cases ha : p.anchor <;> simp [Anchor.components, hup, hhead]

end TestScribe.Path
