/-
# Where modules are written

A module goes through a temporary file next to it, into a directory that gets a package marker.  Writing
it succeeds if the way to it can be paved, and if no directory is at the places of these three files; it
then changes these places and the way only.

* `Path.IsWritten` : a path that is read back from its text, `Emission.temporary_eq` : the temporary file
  is next to the module;
* `Emission.places` : the places of the three files;
* `Emission.Admits` : when a module can be written, `Emission.exists_emit_eq_ok`,
  `Emission.admits_of_emit_eq_ok` : it is then written, and only then;
* `Emission.written` : what is at a place afterwards.
-/
import TestScribe.Emission
import TestScribe.Proofs.Operations

namespace TestScribe

/-! ## Paths and their texts -/

/-- What comes behind joined texts belongs to the last one. -/
theorem Text.joinWith_concat_append (sep : String) (before : List String) (last more : String) :
    joinWith sep (before ++ [last]) ++ more = joinWith sep (before ++ [last ++ more]) := by
  induction before with
  | nil => rfl
  | cons part before ih =>
    obtain ⟨next, rest, hrest⟩ := List.exists_cons_of_ne_nil (l := before ++ [last]) (by simp)
    obtain ⟨next', rest', hrest'⟩ :=
      List.exists_cons_of_ne_nil (l := before ++ [last ++ more]) (by simp)
    rw [List.cons_append, List.cons_append, hrest, hrest', joinWith, joinWith, String.append_assoc,
      ← hrest, ← hrest', ih]

namespace Path

/-- No piece has a separator in it, and a path that starts nowhere does not begin with a filler. -/
structure IsWritten (p : Path) : Prop where
  plain : p.IsPlain
  head : p.anchor = .none → ∀ piece ∈ p.pieces.head?, isFiller piece = false

/-- A path that starts nowhere begins as its first pieces do. -/
theorem IsWritten.of_prefix {p : Path} (hp : p.IsWritten) {pieces : List String}
    (h : pieces <+: p.pieces) : IsWritten ⟨p.anchor, pieces⟩ := by
  obtain ⟨rest, hrest⟩ := h
  refine ⟨fun piece hpiece => hp.plain piece ?_, fun hanchor piece hpiece => hp.head hanchor piece ?_⟩
  · rw [← hrest]
    exact List.mem_append_left rest hpiece
  · rw [← hrest, List.head?_append, Option.mem_def.1 hpiece]
    rfl

theorem isWritten_empty : empty.IsWritten := ⟨by simp [IsPlain, empty], by simp [empty]⟩

/-- A path that was read is spelled in the written form. -/
theorem isWritten_ofString (s : String) : (ofString s).IsWritten := by
  refine ⟨isPlain_ofString s, ?_⟩
  unfold ofString
  split
  · simp
  · next hslash =>
    split
    · simp
    · next hdot =>
      intro _ piece hpiece
      rw [isFiller_eq_false_iff]
      cases hcs : s.toList with
      | nil =>
        rw [hcs] at hpiece
        simp [piecesOf] at hpiece
      | cons c cs =>
        -- the first piece begins with the first character, which is no separator
        have hc : '/' ∉ [c] := by
          rw [List.mem_singleton]
          rintro rfl
          exact hslash cs hcs
        have hsplit := Text.splitChars_append hc cs
        rw [List.singleton_append] at hsplit
        have hpieces : piecesOf s.toList = String.ofList (c :: (Text.splitChars '/' cs).headI)
            :: ((Text.splitChars '/' cs).tail.map String.ofList) := by
          rw [hcs, piecesOf, if_neg (by simp), hsplit]
          rfl
        rw [hpieces, List.head?_cons, Option.mem_some_iff] at hpiece
        constructor
        · rintro rfl
          simp at hpiece
        · rintro rfl
          exact hdot _ (by rw [hpieces, hpiece])

/-- Paths in the written form can be joined. -/
theorem IsWritten.join {p q : Path} (hp : p.IsWritten) (hq : q.IsWritten) : (p.join q).IsWritten := by
  refine ⟨isPlain_join hp.plain hq.plain, ?_⟩
  have hne : p ≠ empty → p.anchor = .none → p.pieces ≠ [] := by
    intro hp hanchor hnil
    apply hp
    rw [empty, ← hanchor, ← hnil]
  -- whatever comes after them, the pieces of `p` stay the first ones
  have hfront : ∀ pieces more, pieces <+: p.pieces → (p.anchor = .none → pieces ≠ []) →
      p.anchor = .none → ∀ piece ∈ (pieces ++ more).head?, isFiller piece = false := by
    intro pieces more hprefix hnil hanchor piece hpiece
    rw [List.head?_append_of_ne_nil _ (hnil hanchor)] at hpiece
    exact (hp.of_prefix hprefix).head hanchor piece hpiece
  unfold Path.join
  split_ifs with habsolute hempty hpieces hend hlast
  · exact hq.head
  · exact hq.head
  · exact hp.head
  · exact hfront _ _ List.prefix_rfl (hne hempty)
  · refine hfront _ _ (List.dropLast_prefix _) fun hanchor hnil => ?_
    obtain ⟨before, hbefore⟩ := List.getLast?_eq_some_iff.1 hlast
    rw [hbefore, List.dropLast_concat] at hnil
    have hblank := hp.head hanchor "" (by rw [hbefore, hnil]; rfl)
    simp [isFiller] at hblank
  · exact hfront _ _ List.prefix_rfl (hne hempty)

theorem IsWritten.child {p : Path} (hp : p.IsWritten) (name : String) : (p.child name).IsWritten :=
  hp.join (isWritten_ofString name)

theorem IsWritten.foldl_child {p : Path} (hp : p.IsWritten) (segments : List String) :
    (segments.foldl Path.child p).IsWritten := by
  induction segments generalizing p with
  | nil => exact hp
  | cons segment segments ih => exact ih (hp.child segment)

theorem IsWritten.parent {p : Path} (hp : p.IsWritten) : p.parent.IsWritten := by
  unfold Path.parent parent?
  split
  · exact isWritten_empty
  · exact isWritten_empty
  · exact isWritten_empty
  · exact hp.of_prefix (((trimEnd_isPrefix _).trans (List.dropLast_prefix _)).trans (trimEnd_isPrefix _))

/-- A path in normal form is in the written form. -/
theorem isWritten_of_normal {p : Path} (hplain : p.IsPlain) (hp : p.normalize = p) : p.IsWritten := by
  refine ⟨hplain, fun _ piece hpiece => ?_⟩
  obtain ⟨-, ups, names, hups, hnames, hpieces⟩ := exists_names_of_normal hp
  rw [hpieces] at hpiece
  rcases hups with rfl | rfl
  · exact (hnames piece (List.mem_of_head? hpiece)).1
  · rw [List.singleton_append, List.head?_cons, Option.mem_some_iff] at hpiece
    rw [← hpiece]
    decide

/-- Pieces are read back from the text that joins them, if the last one is a name. -/
theorem piecesOf_joinWith {parts : List String} (hplain : ∀ part ∈ parts, '/' ∉ part.toList) {name : String}
    (hlast : parts.getLast? = some name) (hname : IsName name) :
    piecesOf (Text.joinWith "/" parts).toList = parts := by
  have hparts : parts ≠ [] := by
    rintro rfl
    cases hlast
  have hpieces : Text.pieces '/' (Text.joinWith "/" parts) = parts := Text.pieces_joinWith hparts hplain
  rw [piecesOf]
  split
  · next hempty =>
    -- a blank text would have a blank piece only, and a name is not blank
    exfalso
    rw [List.isEmpty_iff] at hempty
    rw [Text.pieces, hempty] at hpieces
    rw [← hpieces] at hlast
    cases hlast
    exact absurd hname.1 (by decide)
  · exact hpieces

/-- A text of pieces begins with no slash if its first piece is not blank. -/
theorem joinWith_ne_slash {first : String} (hblank : first ≠ "") (hplain : '/' ∉ first.toList)
    (rest : List String) (cs : List Char) : (Text.joinWith "/" (first :: rest)).toList ≠ '/' :: cs := by
  intro hslash
  obtain ⟨c, more, hc⟩ := List.exists_cons_of_ne_nil (l := first.toList) (by simpa using hblank)
  have hne : c ≠ '/' := by
    rintro rfl
    exact hplain (hc ▸ List.mem_cons_self)
  cases rest with
  | nil =>
    rw [Text.joinWith, hc] at hslash
    exact hne (List.cons.inj hslash).1
  | cons next rest =>
    rw [Text.joinWith, String.toList_append, String.toList_append, hc] at hslash
    exact hne (List.cons.inj hslash).1

/-- A written path that ends in a name is read back from its text. -/
theorem IsWritten.ofString_text {p : Path} (hp : p.IsWritten) {name : String} (hend : p.EndsIn name) :
    ofString p.text = p := by
  have hlast : p.pieces.getLast? = some name := by
    rw [hend.pieces_eq]
    simp
  have hpieces := piecesOf_joinWith hp.plain hlast hend.2
  obtain ⟨anchor, pieces⟩ := p
  obtain ⟨first, rest, rfl⟩ := List.exists_cons_of_ne_nil (l := pieces) (by rintro rfl; cases hlast)
  cases anchor with
  | root =>
    have htext : (text ⟨.root, first :: rest⟩).toList
        = '/' :: (Text.joinWith "/" (first :: rest)).toList := by
      simp [text]
    unfold ofString
    rw [htext]
    exact congrArg (Path.mk .root) hpieces
  | here =>
    have htext : text ⟨.here, first :: rest⟩ = Text.joinWith "/" ("." :: first :: rest) := rfl
    have hplain : ∀ part ∈ "." :: first :: rest, '/' ∉ part.toList := by
      intro part hpart
      rcases List.mem_cons.1 hpart with rfl | hpart
      · decide
      · exact hp.plain part hpart
    have hdotted := piecesOf_joinWith hplain (by rwa [List.getLast?_cons_cons]) hend.2
    unfold ofString
    rw [htext]
    split
    · next cs hslash => exact absurd hslash (joinWith_ne_slash (by decide) (by decide) _ cs)
    · rw [hdotted]
      rfl
  | none =>
    obtain ⟨hblank, hdot⟩ := isFiller_eq_false_iff.1 (hp.head rfl first rfl)
    unfold ofString
    split
    · next cs hslash =>
      exact absurd hslash (joinWith_ne_slash hblank (hp.plain first List.mem_cons_self) rest cs)
    · have htext : text ⟨.none, first :: rest⟩ = Text.joinWith "/" (first :: rest) := rfl
      rw [htext, hpieces]
      split
      · next h =>
        cases h
        exact absurd rfl hdot
      · rfl

/-- The path of another name in the same directory. -/
def beside (p : Path) (name : String) : Path := { p with pieces := p.pieces.dropLast ++ [name] }

/-- A path beside another one ends in the name that it was given. -/
theorem endsIn_beside (p : Path) {name : String} (h : IsName name) : (p.beside name).EndsIn name :=
  ⟨getLast?_allPieces_append p.anchor _ (by simp), h⟩

/-- A path with something added to its text is next to it. -/
theorem IsWritten.extend_eq {p : Path} (hp : p.IsWritten) {name more : String} (hend : p.EndsIn name)
    (hplain : '/' ∉ more.toList) (hmore : IsName (name ++ more)) :
    p.extend more = p.beside (name ++ more) := by
  have hwritten : (p.beside (name ++ more)).IsWritten := by
    constructor
    · intro piece hpiece
      rcases List.mem_append.1 hpiece with hpiece | hpiece
      · exact hp.plain piece (List.mem_of_mem_dropLast hpiece)
      · have hname : '/' ∉ name.toList := hp.plain name (by rw [hend.pieces_eq]; simp)
        rw [List.mem_singleton.1 hpiece, String.toList_append, List.mem_append, not_or]
        exact ⟨hname, hplain⟩
    · intro hanchor piece hpiece
      change piece ∈ (p.pieces.dropLast ++ [name ++ more]).head? at hpiece
      rw [List.head?_append] at hpiece
      cases hhead : p.pieces.dropLast.head? with
      | none =>
        rw [hhead] at hpiece
        cases hpiece
        exact hmore.1
      | some first =>
        rw [hhead] at hpiece
        cases hpiece
        exact (hp.of_prefix (List.dropLast_prefix p.pieces)).head hanchor _ hhead
  have htext : p.text ++ more = (p.beside (name ++ more)).text := by
    have hjoin := Text.joinWith_concat_append "/" p.pieces.dropLast name more
    rw [← hend.pieces_eq] at hjoin
    obtain ⟨first, rest, hpieces⟩ := List.exists_cons_of_ne_nil (l := p.pieces)
      (by rw [hend.pieces_eq]; simp)
    obtain ⟨first', rest', hpieces'⟩ :=
      List.exists_cons_of_ne_nil (l := p.pieces.dropLast ++ [name ++ more]) (by simp)
    rw [hpieces'] at hjoin
    rw [text, text, beside, hpieces']
    rw [hpieces] at hjoin ⊢
    cases p.anchor with
    | root => simp only [String.append_assoc, hjoin]
    | here => simp only [String.append_assoc, hjoin]
    | none => exact hjoin
  rw [extend, htext, hwritten.ofString_text (endsIn_beside p hmore)]

theorem allPieces_concat (anchor : Anchor) (before : List String) (last : String) :
    allPieces ⟨anchor, before ++ [last]⟩ = allPieces ⟨anchor, before⟩ ++ [last] := by
  cases anchor <;> rfl

/-- The parent of a path that ends in a name, piece by piece. -/
theorem parent?_of_endsIn {p : Path} {name : String} (h : p.EndsIn name) :
    p.parent? = some ⟨p.anchor, trimEnd p.pieces.dropLast⟩ := by
  have hlast : p.components.getLast? = some (.name name) := by
    rw [h.components_eq, List.getLast?_concat]
  rw [parent?, hlast, h.trimEnd_eq]

/-- A file in the directory of another one. -/
theorem child_parent_of_endsIn {p : Path} {name other : String} (h : p.EndsIn name)
    (hplain : '/' ∉ other.toList) (hother : IsName other) :
    p.parent.child other = ⟨p.anchor, trimEnd p.pieces.dropLast ++ [other]⟩ := by
  obtain ⟨hblank, hdot⟩ := isFiller_eq_false_iff.1 hother.1
  rw [parent, parent?_of_endsIn h, Option.getD_some, child, ofString_of_plain hplain hblank hdot, join,
    if_neg (by simp [isAbsolute])]
  split_ifs with hempty hnil hrooted hlast
  · rw [empty, Path.mk.injEq] at hempty
    rw [hempty.1, hempty.2]
    rfl
  · simp [allPieces] at hnil
  · simp [allPieces] at hnil
  · exfalso
    rcases trimEnd_eq_nil_or p.pieces.dropLast with htrim | ⟨before, last, htrim, hfiller⟩
    · simp [htrim] at hlast
    · rw [htrim, List.getLast?_concat, Option.some_inj] at hlast
      rw [hlast] at hfiller
      exact absurd hfiller (by decide)
  · rfl

end Path

/-! ## Places next to each other -/

namespace Disk

variable {d : Disk}

/-- Fillers at the end lead nowhere. -/
theorem foldl_advance_trimEnd (place pieces : List String) :
    (Path.trimEnd pieces).foldl advance place = pieces.foldl advance place := by
  induction pieces using List.reverseRecOn with
  | nil => rfl
  | append_singleton pieces last ih =>
    rw [Path.trimEnd_concat]
    split
    · next hfiller =>
      rw [ih, List.foldl_append, List.foldl_cons, List.foldl_nil, advance_of_isFiller hfiller]
    · rfl

/-- Fillers at the end lead nowhere else. -/
theorem mem_route_trimEnd {place pieces v : List String} :
    v ∈ route place (Path.trimEnd pieces) ↔ v ∈ route place pieces := by
  induction pieces using List.reverseRecOn with
  | nil => rfl
  | append_singleton pieces last ih =>
    rw [Path.trimEnd_concat]
    split
    · next hfiller =>
      rw [ih, route, route, wayFrom_append, List.foldl_append, List.foldl_cons, List.foldl_nil,
        advance_of_isFiller hfiller]
      simp [wayFrom]
    · rfl

theorem mem_route_allPieces_trimEnd {place pieces v : List String} (anchor : Anchor) :
    v ∈ route place (Path.allPieces ⟨anchor, Path.trimEnd pieces⟩) ↔
      v ∈ route place (Path.allPieces ⟨anchor, pieces⟩) := by
  cases anchor with
  | here =>
    show v ∈ route place ("." :: Path.trimEnd pieces) ↔ v ∈ route place ("." :: pieces)
    rw [route_cons, route_cons, List.mem_cons, List.mem_cons, mem_route_trimEnd]
  | root => exact mem_route_trimEnd
  | none => exact mem_route_trimEnd

theorem foldl_advance_allPieces_trimEnd (anchor : Anchor) (place pieces : List String) :
    (Path.allPieces ⟨anchor, Path.trimEnd pieces⟩).foldl advance place
      = (Path.allPieces ⟨anchor, pieces⟩).foldl advance place := by
  cases anchor with
  | here => exact foldl_advance_trimEnd (advance place ".") pieces
  | root => exact foldl_advance_trimEnd place pieces
  | none => exact foldl_advance_trimEnd place pieces

section EndsIn

variable {p : Path} {name other : String} (hend : p.EndsIn name)

include hend

/-- The way to a path that ends in a name is the route of what comes before it. -/
theorem way_eq_route :
    d.way p = route (d.start p) (Path.allPieces ⟨p.anchor, p.pieces.dropLast⟩) := by
  have hall : p.allPieces = Path.allPieces ⟨p.anchor, p.pieces.dropLast⟩ ++ [name] := by
    rw [← Path.allPieces_concat, ← hend.pieces_eq]
  exact way_of_allPieces_eq hall

/-- The place of a path that ends in a name ends in it. -/
theorem location_eq_concat :
    d.location p = (Path.allPieces ⟨p.anchor, p.pieces.dropLast⟩).foldl advance (d.start p) ++ [name] := by
  have hall : p.allPieces = Path.allPieces ⟨p.anchor, p.pieces.dropLast⟩ ++ [name] := by
    rw [← Path.allPieces_concat, ← hend.pieces_eq]
  rw [location_of_allPieces_eq hall, advance_of_isName hend.2]

/-- Names in the same directory are found on the same way. -/
theorem way_beside (hother : Path.IsName other) : d.way (p.beside other) = d.way p := by
  rw [way_eq_route hend, way_eq_route (Path.endsIn_beside p hother), Path.beside, List.dropLast_concat]
  rfl

/-- A path beside another one leads to the same directory. -/
theorem location_beside (hother : Path.IsName other) :
    d.location (p.beside other) = (d.location p).dropLast ++ [other] := by
  rw [location_eq_concat hend, location_eq_concat (Path.endsIn_beside p hother), Path.beside,
    List.dropLast_concat, List.dropLast_concat]
  rfl

/-- A child of the parent is reached by the same way. -/
theorem mem_way_child_parent (hplain : '/' ∉ other.toList) (hother : Path.IsName other)
    {v : List String} : v ∈ d.way (p.parent.child other) ↔ v ∈ d.way p := by
  have hend' : (p.parent.child other).EndsIn other := Path.endsIn_child hplain hother
  rw [way_eq_route hend, way_eq_route hend', Path.child_parent_of_endsIn hend hplain hother,
    List.dropLast_concat]
  exact mem_route_allPieces_trimEnd p.anchor

/-- A child of the parent is in the same directory. -/
theorem location_child_parent (hplain : '/' ∉ other.toList) (hother : Path.IsName other) :
    d.location (p.parent.child other) = (d.location p).dropLast ++ [other] := by
  have hend' : (p.parent.child other).EndsIn other := Path.endsIn_child hplain hother
  rw [location_eq_concat hend, location_eq_concat hend', Path.child_parent_of_endsIn hend hplain hother,
    List.dropLast_concat, List.dropLast_concat]
  exact congrArg (· ++ [other]) (foldl_advance_allPieces_trimEnd p.anchor _ _)

/-- The way to a file is that of making its directory. -/
theorem mem_route_parent {v : List String} :
    v ∈ route (d.start p.parent) p.parent.allPieces ↔ v ∈ d.way p := by
  rw [way_eq_route hend, Path.parent, Path.parent?_of_endsIn hend, Option.getD_some]
  exact mem_route_allPieces_trimEnd p.anchor

/-- The parent starts where the path does. -/
theorem start_parent : d.start p.parent = d.start p := by
  rw [Path.parent, Path.parent?_of_endsIn hend]
  rfl

end EndsIn

/-- The device lets all operations through, and every file can be read. -/
def IsReliable (d : Disk) : Prop := (∀ fate ∈ d.fates, fate = none) ∧ d.unreadable = []

/-- A reliable disk is ready for any number of operations. -/
theorem IsReliable.ready (h : d.IsReliable) (n : Nat) : d.Ready n :=
  fun fate hfate => h.1 fate (List.mem_of_mem_take hfate)

/-- A disk that was reliable stays so. -/
theorem Becomes.isReliable {d' : Disk} {n : Nat} {kinds : List String → Option Kind}
    (h : Becomes d d' n kinds) (hd : d.IsReliable) : d'.IsReliable := by
  refine ⟨fun fate hfate => ?_, h.unreadable.trans hd.2⟩
  rw [h.fates] at hfate
  exact hd.1 fate (List.mem_of_mem_drop hfate)

end Disk

/-! ## Writing a module -/

namespace Emission

/-- The places of a module, of its temporary file and of the package marker in its directory. -/
def places (marker : String) (output : Path) (d : Disk) : List (List String) :=
  [d.location output, d.location (temporary output), d.location (output.parent.child marker)]

/-- The path of a module ends in a name, and the package marker has another one. -/
structure Names (marker : String) (output : Path) (name : String) : Prop where
  written : output.IsWritten
  endsIn : output.EndsIn name
  plain : '/' ∉ marker.toList
  isName : Path.IsName marker
  ne : marker ≠ name
  ne_temporary : marker ≠ name ++ ".tmp"

/-- A module can be written: its way starts at a directory and has no file on it, and no directory is, or
is made, at the places of its files. -/
structure Admits (marker : String) (output : Path) (d : Disk) : Prop where
  start : d.kind? (d.start output) = some .directory
  way : ∀ v ∈ d.way output, ∀ content, d.kind? v ≠ some (.file content)
  places : ∀ v ∈ places marker output d, d.kind? v ≠ some .directory ∧ v ∉ d.way output

instance decidableMemWay (place : List String) (way : List (List String)) : Decidable (place ∈ way) :=
  List.instDecidableMemOfLawfulBEq place way

/-- What is at a place after a module was written. -/
def written (marker text : String) (output : Path) (d : Disk) (place : List String) : Option Kind :=
  if place = d.location output then some (.file text.toUTF8)
  else if place = d.location (temporary output) then none
  else if d.kind? place ≠ none then d.kind? place
  else if place = d.location (output.parent.child marker) then some (.file packageNotice.toUTF8)
  else if place ∈ d.way output then some .directory
  else none

/-- None of the three places is a directory, and none is on the way. -/
theorem Admits.forall_places {marker : String} {output : Path} {d : Disk} (h : Admits marker output d) :
    (d.kind? (d.location output) ≠ some .directory ∧ d.location output ∉ d.way output) ∧
      (d.kind? (d.location (temporary output)) ≠ some .directory ∧
        d.location (temporary output) ∉ d.way output) ∧
      d.kind? (d.location (output.parent.child marker)) ≠ some .directory ∧
        d.location (output.parent.child marker) ∉ d.way output := by
  have hplaces := h.places
  simpa only [Emission.places, List.forall_mem_cons, List.not_mem_nil, false_imp_iff, implies_true,
    and_true] using hplaces

theorem isName_temporary (name : String) : Path.IsName (name ++ ".tmp") :=
  Path.isName_append ⟨'t', by decide, by decide⟩ name

/-- After its directories are made, the way consists of directories. -/
theorem kind?_of_paved {output : Path} {d d' : Disk}
    (hway : ∀ v ∈ d.way output, ∀ content, d.kind? v ≠ some (.file content))
    (hpaved : Disk.Becomes d d' 1 fun place =>
      if place ∈ d.way output ∧ d.kind? place = none then some .directory else d.kind? place) :
    (∀ v ∈ d.way output, d'.kind? v = some .directory) ∧
      ∀ v, v ∉ d.way output → d'.kind? v = d.kind? v := by
  constructor
  · intro v hv
    rw [hpaved.kind?]
    cases hkind : d.kind? v with
    | none => rw [if_pos ⟨hv, rfl⟩]
    | some kind =>
      cases kind with
      | file content => exact absurd hkind (hway v hv content)
      | directory => simp
  · intro v hv
    rw [hpaved.kind?, if_neg fun h => hv h.1]

/-- The package marker is written unless there is one. -/
theorem ensurePackage_eq (marker : String) (directory : Path) (d : Disk) :
    ensurePackage marker directory d = if d.isFile (directory.child marker) = true then .ok () d
      else Disk.write (directory.child marker) packageNotice.toUTF8 d := by
  rw [ensurePackage, bind_get]
  split <;> rfl

/-- Files that are new when a module was written hold the text of the module, at its place, or the notice of a
package marker. -/
theorem file_of_emit_eq_ok {marker text : String} {directory output : Path} {d d' : Disk}
    (h : emit marker text directory output d = .ok () d') :
    d'.workingDirectory = d.workingDirectory ∧ (∃ name, output.EndsIn name) ∧
      ∀ place content, d'.kind? place = some (.file content) → d.kind? place = some (.file content) ∨
        place = d.location output ∧ content = text.toUTF8 ∨ content = packageNotice.toUTF8 := by
  obtain ⟨_, d₁, hpave, h⟩ := exists_of_bind_eq_ok h
  obtain ⟨_, d₂, hwrite, h⟩ := exists_of_bind_eq_ok h
  obtain ⟨_, d₃, hrename, hpackage⟩ := exists_of_bind_eq_ok h
  have hpaved : Disk.Changes (fun _ => False) (fun _ => False) d d₁ :=
    (Disk.changes_createDirectories directory d).ok hpave
  have hdraft := Disk.becomes_of_write_eq_ok hwrite
  have hplaced := Disk.becomes_of_rename_eq_ok (Disk.read?_of_write_eq_ok hwrite) hrename
  have hworking₂ : d₂.workingDirectory = d.workingDirectory :=
    hdraft.workingDirectory.trans hpaved.workingDirectory
  have hmodule : ∀ place content, d₃.kind? place = some (.file content) →
      d.kind? place = some (.file content) ∨ place = d.location output ∧ content = text.toUTF8 := by
    intro place content hkind
    rw [hplaced.kind?, Disk.location_of_workingDirectory_eq hworking₂] at hkind
    split_ifs at hkind with hplace htemporary
    · cases hkind
      exact .inr ⟨hplace, rfl⟩
    · rw [Disk.location_of_workingDirectory_eq hdraft.workingDirectory] at htemporary
      rw [hdraft.kind?, if_neg htemporary] at hkind
      exact .inl ((hpaved.same place content not_false).1 hkind)
  rw [ensurePackage_eq] at hpackage
  split at hpackage
  · cases hpackage
    exact ⟨hplaced.workingDirectory.trans hworking₂, (Disk.of_rename_eq_ok hrename).2.1,
      fun place content hkind => (hmodule place content hkind).imp_right .inl⟩
  · have hmarked := Disk.becomes_of_write_eq_ok hpackage
    refine ⟨hmarked.workingDirectory.trans (hplaced.workingDirectory.trans hworking₂),
      (Disk.of_rename_eq_ok hrename).2.1, fun place content hkind => ?_⟩
    rw [hmarked.kind?] at hkind
    split_ifs at hkind
    · cases hkind
      exact .inr (.inr rfl)
    · exact (hmodule place content hkind).imp_right .inl

/-- No directory is in the place of a marker that was ensured. -/
theorem kind?_ne_of_ensurePackage_eq_ok {marker : String} {directory : Path} {d d' : Disk}
    (h : ensurePackage marker directory d = .ok () d') :
    d.kind? (d.location (directory.child marker)) ≠ some .directory := by
  rw [ensurePackage_eq] at h
  split at h
  · next hfile =>
    obtain ⟨content, hread⟩ := Disk.isFile_iff.1 hfile
    rw [(Disk.read?_eq_some_iff.1 hread).2.2]
    simp
  · exact (Disk.of_write_eq_ok h).2.2.2

section Names

variable {marker name : String} {output : Path} (hnames : Names marker output name) {d d' : Disk}

include hnames

theorem temporary_eq : temporary output = output.beside (name ++ ".tmp") :=
  hnames.written.extend_eq hnames.endsIn (by decide) (isName_temporary name)

/-- The temporary file is reached by the same way. -/
theorem way_temporary : d.way (temporary output) = d.way output := by
  rw [temporary_eq hnames, Disk.way_beside hnames.endsIn (isName_temporary name)]

theorem endsIn_temporary_of_names : (temporary output).EndsIn (name ++ ".tmp") := by
  rw [temporary_eq hnames]
  exact Path.endsIn_beside output (isName_temporary name)

theorem location_output : d.location output = (d.location output).dropLast ++ [name] := by
  rw [Disk.location_eq_concat hnames.endsIn, List.dropLast_concat]

theorem location_temporary :
    d.location (temporary output) = (d.location output).dropLast ++ [name ++ ".tmp"] := by
  rw [temporary_eq hnames, Disk.location_beside hnames.endsIn (isName_temporary name)]

theorem location_marker :
    d.location (output.parent.child marker) = (d.location output).dropLast ++ [marker] :=
  Disk.location_child_parent hnames.endsIn hnames.plain hnames.isName

/-- The module, its temporary file and the marker have three places. -/
theorem location_ne :
    d.location (temporary output) ≠ d.location output ∧
      d.location (output.parent.child marker) ≠ d.location output ∧
      d.location (output.parent.child marker) ≠ d.location (temporary output) := by
  rw [location_temporary hnames, location_marker hnames]
  refine ⟨?_, ?_, ?_⟩
  · intro h
    rw [location_output hnames, List.dropLast_concat, List.append_cancel_left_eq] at h
    simp at h
  · intro h
    rw [location_output hnames, List.dropLast_concat, List.append_cancel_left_eq] at h
    exact hnames.ne (by simpa using h)
  · intro h
    rw [List.append_cancel_left_eq] at h
    exact hnames.ne_temporary (by simpa using h)

/-- Directories are made on a way that starts at a directory and has no file on it. -/
theorem exists_paved (hreliable : d.IsReliable) (hstart : d.kind? (d.start output) = some .directory)
    (hway : ∀ v ∈ d.way output, ∀ content, d.kind? v ≠ some (.file content)) :
    ∃ d', Disk.createDirectories output.parent d = .ok () d' ∧ Disk.Becomes d d' 1 fun place =>
      if place ∈ d.way output ∧ d.kind? place = none then some .directory else d.kind? place := by
  have hend := hnames.endsIn
  obtain ⟨d', hrun, hbecomes⟩ := Disk.exists_createDirectories_eq_ok (hreliable.ready 1)
    (p := output.parent) (by rwa [Disk.start_parent hend])
    fun v hv => hway v ((Disk.mem_route_parent hend).1 hv)
  refine ⟨d', hrun, hbecomes.workingDirectory, hbecomes.fates, hbecomes.unreadable, fun place => ?_⟩
  simp only [hbecomes.kind?, Disk.mem_route_parent hend]

/-- Directories are made only on such a way, also where there is nothing to do. -/
theorem free_of_paved (hreliable : d.IsReliable) (hrun : Disk.createDirectories output.parent d = .ok () d')
    (hpaved : ∀ v ∈ d'.way output, d'.kind? v = some .directory) :
    d.kind? (d.start output) = some .directory ∧
      ∀ v ∈ d.way output, ∀ content, d.kind? v ≠ some (.file content) := by
  have hend := hnames.endsIn
  by_cases hempty : output.parent = Path.empty
  · rw [Disk.createDirectories_eq_of_ready (hreliable.ready 1), if_pos hempty] at hrun
    cases hrun
    have hdirectory : ∀ v ∈ d.way output, d.kind? v = some .directory := hpaved
    refine ⟨hdirectory _ ?_, fun v hv content hfile => ?_⟩
    · rw [← Disk.mem_route_parent hend, Disk.start_parent hend]
      exact Disk.mem_route_self _ _
    · rw [hdirectory v hv] at hfile
      cases hfile
  · obtain ⟨hstart, hfree⟩ := Disk.free_of_createDirectories_eq_ok hrun hempty
    rw [Disk.start_parent hend] at hstart
    exact ⟨hstart, fun v hv => hfree v ((Disk.mem_route_parent hend).2 hv)⟩

/-- The temporary file is written on a paved way. -/
theorem exists_drafted (hreliable : d.IsReliable)
    (hway : ∀ v ∈ d.way output, d.kind? v = some .directory)
    (hold : d.kind? (d.location (temporary output)) ≠ some .directory) (text : String) :
    ∃ d', Disk.write (temporary output) text.toUTF8 d = .ok () d' ∧ Disk.Becomes d d' 1 fun place =>
      if place = d.location (temporary output) then some (.file text.toUTF8) else d.kind? place :=
  Disk.exists_write_eq_ok (hreliable.ready 1) (endsIn_temporary_of_names hnames)
    (by rwa [way_temporary hnames]) hold

/-- The temporary file takes the place of the module. -/
theorem exists_placed (hreliable : d.IsReliable)
    (hway : ∀ v ∈ d.way output, d.kind? v = some .directory) {content : ByteArray}
    (hdraft : d.kind? (d.location (temporary output)) = some (.file content))
    (hold : d.kind? (d.location output) ≠ some .directory) :
    ∃ d', Disk.rename (temporary output) output d = .ok () d' ∧ Disk.Becomes d d' 1 fun place =>
      if place = d.location output then some (.file content)
      else if place = d.location (temporary output) then none else d.kind? place := by
  have hread : d.read? (temporary output) = some content :=
    Disk.read?_eq_some_iff.2 ⟨(endsIn_temporary_of_names hnames).ne_empty,
      by rwa [way_temporary hnames], hdraft⟩
  exact Disk.exists_rename_eq_ok (hreliable.ready 1) hread hnames.endsIn hway hold

/-- The directory has its package marker, or gets one. -/
theorem exists_marked (hreliable : d.IsReliable)
    (hway : ∀ v ∈ d.way output, d.kind? v = some .directory)
    (hold : d.kind? (d.location (output.parent.child marker)) ≠ some .directory) :
    ∃ d', ensurePackage marker output.parent d = .ok () d' ∧ d'.IsReliable ∧
      d'.workingDirectory = d.workingDirectory ∧ ∀ place, d'.kind? place =
        if place = d.location (output.parent.child marker) ∧ d.kind? place = none
          then some (.file packageNotice.toUTF8) else d.kind? place := by
  have hend : (output.parent.child marker).EndsIn marker := Path.endsIn_child hnames.plain hnames.isName
  have hway' : ∀ v ∈ d.way (output.parent.child marker), d.kind? v = some .directory :=
    fun v hv => hway v ((Disk.mem_way_child_parent hnames.endsIn hnames.plain hnames.isName).1 hv)
  rw [ensurePackage_eq]
  cases hkind : d.kind? (d.location (output.parent.child marker)) with
  | none =>
    have hnot : ¬ d.isFile (output.parent.child marker) = true := by
      rw [Disk.isFile_iff]
      rintro ⟨content, hread⟩
      rw [(Disk.read?_eq_some_iff.1 hread).2.2] at hkind
      cases hkind
    obtain ⟨d', hwrite, hbecomes⟩ : ∃ d', Disk.write (output.parent.child marker) packageNotice.toUTF8 d
        = .ok () d' ∧ Disk.Becomes d d' 1 fun place =>
          if place = d.location (output.parent.child marker) then some (.file packageNotice.toUTF8)
          else d.kind? place :=
      Disk.exists_write_eq_ok (hreliable.ready 1) hend hway' hold
    rw [if_neg hnot]
    refine ⟨d', hwrite, hbecomes.isReliable hreliable, hbecomes.workingDirectory, fun place => ?_⟩
    rw [hbecomes.kind?]
    by_cases hplace : place = d.location (output.parent.child marker)
    · rw [if_pos hplace, if_pos ⟨hplace, by rw [hplace, hkind]⟩]
    · rw [if_neg hplace, if_neg fun h => hplace h.1]
  | some kind =>
    cases kind with
    | directory => exact absurd hkind hold
    | file content =>
      have hfile : d.isFile (output.parent.child marker) = true :=
        Disk.isFile_iff.2 ⟨content, Disk.read?_eq_some_iff.2 ⟨hend.ne_empty, hway', hkind⟩⟩
      rw [if_pos hfile]
      refine ⟨d, rfl, hreliable, rfl, fun place => ?_⟩
      rw [if_neg]
      rintro ⟨rfl, hnone⟩
      rw [hkind] at hnone
      cases hnone

/-- A module is written where it can be. -/
theorem exists_emit_eq_ok (hreliable : d.IsReliable) (h : Admits marker output d) (text : String) :
    ∃ d', emit marker text output.parent output d = .ok () d' ∧ d'.IsReliable ∧
      d'.workingDirectory = d.workingDirectory ∧ ∀ v, d'.kind? v = written marker text output d v := by
  obtain ⟨⟨hloc, hlocWay⟩, ⟨htemp, htempWay⟩, hmark, hmarkWay⟩ := h.forall_places
  obtain ⟨hne, hne', hne''⟩ := location_ne (d := d) hnames
  -- the directories
  obtain ⟨d₁, hrun₁, hbecomes₁⟩ := exists_paved hnames hreliable h.start h.way
  obtain ⟨hway₁, hkeep₁⟩ := kind?_of_paved h.way hbecomes₁
  have hworking₁ := hbecomes₁.workingDirectory
  -- the temporary file
  obtain ⟨d₂, hrun₂, hbecomes₂⟩ := exists_drafted hnames (hbecomes₁.isReliable hreliable)
    (by rwa [Disk.way_of_workingDirectory_eq hworking₁])
    (by rwa [Disk.location_of_workingDirectory_eq hworking₁, hkeep₁ _ htempWay]) text
  have hworking₂ := hbecomes₂.workingDirectory.trans hworking₁
  have hkind₂ := hbecomes₂.kind?
  rw [Disk.location_of_workingDirectory_eq hworking₁] at hkind₂
  -- the module itself
  have hway₂ : ∀ v ∈ d.way output, d₂.kind? v = some .directory := by
    intro v hv
    rw [hkind₂, if_neg, hway₁ v hv]
    rintro rfl
    exact htempWay hv
  have hdraft : d₂.kind? (d₂.location (temporary output)) = some (.file text.toUTF8) := by
    rw [Disk.location_of_workingDirectory_eq hworking₂, hkind₂, if_pos rfl]
  obtain ⟨d₃, hrun₃, hbecomes₃⟩ := exists_placed hnames
    (hbecomes₂.isReliable (hbecomes₁.isReliable hreliable))
    (by rwa [Disk.way_of_workingDirectory_eq hworking₂]) hdraft
    (by rwa [Disk.location_of_workingDirectory_eq hworking₂, hkind₂, if_neg (Ne.symm hne),
      hkeep₁ _ hlocWay])
  have hworking₃ := hbecomes₃.workingDirectory.trans hworking₂
  have hkind₃ : ∀ v, d₃.kind? v = if v = d.location output then some (.file text.toUTF8)
      else if v = d.location (temporary output) then none else d₁.kind? v := by
    intro v
    rw [hbecomes₃.kind?, Disk.location_of_workingDirectory_eq hworking₂,
      Disk.location_of_workingDirectory_eq hworking₂, hkind₂]
    split_ifs <;> rfl
  -- the package marker
  have hway₃ : ∀ v ∈ d.way output, d₃.kind? v = some .directory := by
    intro v hv
    rw [hkind₃, if_neg, if_neg, hway₁ v hv]
    · rintro rfl
      exact htempWay hv
    · rintro rfl
      exact hlocWay hv
  have hmark₃ : d₃.kind? (d.location (output.parent.child marker))
      = d.kind? (d.location (output.parent.child marker)) := by
    rw [hkind₃, if_neg hne', if_neg hne'', hkeep₁ _ hmarkWay]
  obtain ⟨d₄, hrun₄, hreliable₄, hworking₄, hkind₄⟩ := exists_marked hnames
    (hbecomes₃.isReliable (hbecomes₂.isReliable (hbecomes₁.isReliable hreliable)))
    (by rwa [Disk.way_of_workingDirectory_eq hworking₃])
    (by rwa [Disk.location_of_workingDirectory_eq hworking₃, hmark₃])
  refine ⟨d₄, ?_, hreliable₄, hworking₄.trans hworking₃, fun v => ?_⟩
  · rw [emit, bind_of_ok hrun₁, bind_of_ok hrun₂, bind_of_ok hrun₃, hrun₄]
  · rw [hkind₄, Disk.location_of_workingDirectory_eq hworking₃, written]
    by_cases hv : v = d.location output
    · rw [if_neg, hkind₃, if_pos hv, if_pos hv]
      rintro ⟨hv', -⟩
      exact hne' (hv'.symm.trans hv)
    · by_cases hv' : v = d.location (temporary output)
      · rw [if_neg, hkind₃, if_neg hv, if_pos hv', if_neg hv, if_pos hv']
        rintro ⟨hv'', -⟩
        exact hne'' (hv''.symm.trans hv')
      · rw [hkind₃, if_neg hv, if_neg hv', if_neg hv, if_neg hv', hbecomes₁.kind?]
        by_cases hmarker : v = d.location (output.parent.child marker)
        · cases d.kind? v <;> simp [hmarker, hmarkWay]
        · cases d.kind? v <;> simp [hmarker]

/-- A module is written only where it can be. -/
theorem admits_of_emit_eq_ok (hreliable : d.IsReliable) {text : String}
    (h : emit marker text output.parent output d = .ok () d') : Admits marker output d := by
  obtain ⟨hne, hne', hne''⟩ := location_ne (d := d) hnames
  obtain ⟨_, d₁, hrun₁, h⟩ := exists_of_bind_eq_ok h
  obtain ⟨_, d₂, hrun₂, h⟩ := exists_of_bind_eq_ok h
  obtain ⟨_, d₃, hrun₃, hrun₄⟩ := exists_of_bind_eq_ok h
  obtain ⟨-, -, hway₁, htemp₁⟩ := Disk.of_write_eq_ok hrun₂
  rw [way_temporary hnames] at hway₁
  obtain ⟨hstart, hway⟩ := free_of_paved hnames hreliable hrun₁ hway₁
  obtain ⟨d₁', hrun₁', hbecomes₁⟩ := exists_paved hnames hreliable hstart hway
  obtain rfl : d₁ = d₁' := by
    rw [hrun₁] at hrun₁'
    cases hrun₁'
    rfl
  have hreliable₁ := hbecomes₁.isReliable hreliable
  have hworking₁ := hbecomes₁.workingDirectory
  obtain ⟨hpaved, hkeep₁⟩ := kind?_of_paved hway hbecomes₁
  -- what is not a directory once the way is paved is not on it, and was none before
  have hfree : ∀ v, d₁.kind? v ≠ some .directory → d.kind? v ≠ some .directory ∧ v ∉ d.way output := by
    intro v hv
    have hnot : v ∉ d.way output := fun hmem => hv (hpaved v hmem)
    rw [hkeep₁ v hnot] at hv
    exact ⟨hv, hnot⟩
  rw [Disk.location_of_workingDirectory_eq hworking₁] at htemp₁
  obtain ⟨htemp, htempWay⟩ := hfree _ htemp₁
  -- the module was no directory when the temporary file was written
  obtain ⟨d₂', hrun₂', hbecomes₂⟩ := exists_drafted hnames hreliable₁ hway₁
    (by rwa [Disk.location_of_workingDirectory_eq hworking₁]) text
  obtain rfl : d₂ = d₂' := by
    rw [hrun₂] at hrun₂'
    cases hrun₂'
    rfl
  have hworking₂ := hbecomes₂.workingDirectory.trans hworking₁
  have hkind₂ := hbecomes₂.kind?
  rw [Disk.location_of_workingDirectory_eq hworking₁] at hkind₂
  obtain ⟨-, -, hway₂, hloc₂⟩ := Disk.of_rename_eq_ok hrun₃
  rw [Disk.location_of_workingDirectory_eq hworking₂, hkind₂, if_neg (Ne.symm hne)] at hloc₂
  obtain ⟨hloc, hlocWay⟩ := hfree _ hloc₂
  -- nor was the package marker when the module was in its place
  have hdraft : d₂.kind? (d₂.location (temporary output)) = some (.file text.toUTF8) := by
    rw [Disk.location_of_workingDirectory_eq hworking₂, hkind₂, if_pos rfl]
  obtain ⟨d₃', hrun₃', hbecomes₃⟩ := exists_placed hnames (hbecomes₂.isReliable hreliable₁) hway₂ hdraft
    (by rwa [Disk.location_of_workingDirectory_eq hworking₂, hkind₂, if_neg (Ne.symm hne)])
  obtain rfl : d₃ = d₃' := by
    rw [hrun₃] at hrun₃'
    cases hrun₃'
    rfl
  have hworking₃ := hbecomes₃.workingDirectory.trans hworking₂
  have hmark₃ : d₃.kind? (d₃.location (output.parent.child marker)) ≠ some .directory :=
    kind?_ne_of_ensurePackage_eq_ok hrun₄
  rw [Disk.location_of_workingDirectory_eq hworking₃, hbecomes₃.kind?,
    Disk.location_of_workingDirectory_eq hworking₂, if_neg hne',
    Disk.location_of_workingDirectory_eq hworking₂, if_neg hne'', hkind₂, if_neg hne''] at hmark₃
  obtain ⟨hmark, hmarkWay⟩ := hfree _ hmark₃
  refine ⟨hstart, hway, ?_⟩
  simp only [places, List.forall_mem_cons, List.not_mem_nil, false_imp_iff, implies_true, and_true]
  exact ⟨⟨hloc, hlocWay⟩, ⟨htemp, htempWay⟩, hmark, hmarkWay⟩

end Names

end Emission

end TestScribe
