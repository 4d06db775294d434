/-
# Nearest roots

The root of a path is the nearest directory, at its start or above, that holds the marker.  Roots are remembered by
the directories from which they were searched, and may be forgotten again.  A root that is remembered is the one that
a search would find, for a directory that is spelled in another way also: the places that a path passes, and so what
is found from there, depend on its components only.

* `Component.trail`, `Disk.mem_route_iff_mem_trail` : the places that components pass;
* `Disk.isFile_child_of_same` : paths with the same components have the same files below them;
* `Path.IsAtOrAbove`, `Path.pairwise_ancestors`, `Path.exists_mem_ancestors` : what is above a path, nearest first;
* `Locator.IsNearest`, `Locator.isNearest_search` : the root that is searched for;
* `Locator.History` : lookups in any order, with what is remembered lost at any time;
* `remembered_roots_are_nearest` : every lookup of a history gives the nearest root.
-/
import TestScribe.Locator
import TestScribe.Proofs.Discovery
import TestScribe.Proofs.Lookups
import TestScribe.Proofs.Places

namespace TestScribe

/-! ## Places that components pass -/

/-- The places that some components pass from a place on, the last one included. -/
def Component.trail (place : List String) : List Component → List (List String)
  | [] => [place]
  | c :: rest => place :: trail (Component.leadTo place c) rest

theorem Component.mem_trail_self (place : List String) (cs : List Component) : place ∈ trail place cs := by
  cases cs <;> simp [trail]

namespace Path

variable {p q : Path}

/-- Fillers pass no place of their own. -/
theorem mem_route_iff (pieces : List String) (place v : List String) :
    v ∈ Disk.route place pieces ↔ v ∈ Component.trail place (pieces.filterMap componentOf?) := by
  induction pieces generalizing place with
  | nil => rfl
  | cons piece rest ih =>
    rw [Disk.route_cons, List.mem_cons, ih]
    cases hc : componentOf? piece with
    | none =>
      rw [List.filterMap_cons_none hc, Disk.advance_of_isFiller (componentOf?_eq_none_iff.1 hc)]
      refine or_iff_right_of_imp ?_
      rintro rfl
      exact Component.mem_trail_self _ _
    | some c =>
      rw [List.filterMap_cons_some hc, Component.trail, List.mem_cons]
      obtain ⟨hfiller, ⟨rfl, rfl⟩ | ⟨hup, rfl⟩⟩ := componentOf?_cases hc
      · rfl
      · rw [Disk.advance_of_isName ⟨hfiller, hup⟩]
        rfl

theorem same_refl (p : Path) : p.same p := same_iff.2 rfl

theorem same_symm (h : p.same q) : q.same p := same_iff.2 (same_iff.1 h).symm

/-- An absolute path begins at the top. -/
theorem isAbsolute_iff : p.isAbsolute = true ↔ p.components.head? = some .root := by
  rw [isAbsolute, decide_eq_true_eq, components]
  cases p.anchor with
  | root => simp [Anchor.components]
  | here => simp [Anchor.components]
  | none =>
    simp only [Anchor.components, List.nil_append, reduceCtorEq, false_iff]
    exact fun h => root_notMem_filterMap p.pieces (List.mem_of_head? h)

theorem isAbsolute_eq_of_same (h : p.same q) : p.isAbsolute = q.isAbsolute := by
  rw [Bool.eq_iff_iff, isAbsolute_iff, isAbsolute_iff, same_iff.1 h]

end Path

namespace Disk

variable {d : Disk} {p q : Path}

/-- A path passes the places that its components lead through. -/
theorem mem_route_iff_mem_trail (p : Path) (v : List String) :
    v ∈ route (d.start p) p.allPieces ↔ v ∈ Component.trail (d.start p) p.components := by
  rw [Path.mem_route_iff, Path.filterMap_allPieces, Path.components]
  cases p.anchor with
  | none => rfl
  | root | here =>
    simp only [Path.Anchor.components, List.singleton_append, Component.trail, Component.leadTo, List.mem_cons]
    refine (or_iff_right_of_imp ?_).symm
    rintro rfl
    exact Component.mem_trail_self _ _

/-- Paths that are the same start at the same place. -/
theorem start_of_same (h : p.same q) : d.start p = d.start q := by
  rw [start, start, Path.isAbsolute_eq_of_same h]

/-- They lead to the same place. -/
theorem location_of_same (h : p.same q) : d.location p = d.location q := by
  rw [location_eq, location_eq, start_of_same h, Path.same_iff.1 h]

/-- Paths with the same components pass the same places. -/
theorem mem_way_or_eq_location_of_same (h : p.same q) {v : List String} (hv : v ∈ d.way p ∨ v = d.location p) :
    v ∈ d.way q ∨ v = d.location q := by
  rw [← List.mem_singleton, ← List.mem_append] at hv ⊢
  change v ∈ route (d.start p) p.allPieces at hv
  change v ∈ route (d.start q) q.allPieces
  rwa [mem_route_iff_mem_trail, ← start_of_same h, ← Path.same_iff.1 h, ← mem_route_iff_mem_trail]

/-- The last piece of a path that leads to a file is a name. -/
theorem exists_endsIn_of_isFile (h : d.isFile p = true) : ∃ name, p.EndsIn name := by
  obtain ⟨content, hread⟩ := isFile_iff.1 h
  obtain ⟨hne, hway, hfile⟩ := read?_eq_some_iff.1 hread
  rcases List.eq_nil_or_concat p.allPieces with hnil | ⟨before, last, hall⟩
  · -- without pieces, the path leads to where it starts, which is the top
    have hroot : p.isAbsolute = true := by
      by_contra hrelative
      refine hne ?_
      obtain ⟨anchor, pieces⟩ := p
      cases anchor with
      | root => exact absurd rfl hrelative
      | here => cases hnil
      | none =>
        cases hnil
        rfl
    rw [location, hnil, start, if_pos hroot] at hfile
    cases hfile
  · rw [List.concat_eq_append] at hall
    have hbefore : d.kind? (before.foldl advance (d.start p)) = some .directory := by
      refine hway _ ?_
      rw [way_of_allPieces_eq hall]
      exact List.mem_append_right _ (List.mem_singleton_self _)
    rw [location_of_allPieces_eq hall, advance] at hfile
    refine ⟨last, by rw [hall, List.getLast?_concat], ?_⟩
    split_ifs at hfile with hfiller hup
    · rw [hbefore] at hfile
      cases hfile
    · rcases List.eq_nil_or_concat (before.foldl advance (d.start p)) with htop | ⟨above, name, hplace⟩
      · rw [htop] at hfile
        cases hfile
      · rw [hplace, List.concat_eq_append] at hbefore hfile
        have hthere : d.kind? (above ++ [name]) ≠ none := by simp [hbefore]
        rw [List.dropLast_concat, kind?_of_append hthere (by simp)] at hfile
        cases hfile
    · exact ⟨by simpa using hfiller, hup⟩

/-- They have the same files below them. -/
theorem isFile_child_of_same (h : p.same q) (name : String) :
    d.isFile (p.child name) = d.isFile (q.child name) := by
  have himp : ∀ {p q : Path}, p.same q → d.isFile (p.child name) = true → d.isFile (q.child name) = true := by
    intro p q h hfile
    rw [Path.child] at hfile ⊢
    cases habsolute : (Path.ofString name).isAbsolute with
    | true =>
      rw [Path.join, if_pos habsolute] at hfile ⊢
      exact hfile
    | false =>
      by_cases hnil : (Path.ofString name).allPieces = []
      · -- nothing is added but a separator at the end, and that is not the path of a file
        have hempty : Path.ofString name = Path.empty := by
          generalize Path.ofString name = added at habsolute hnil
          obtain ⟨anchor, pieces⟩ := added
          cases anchor with
          | root => cases habsolute
          | here => cases hnil
          | none =>
            cases hnil
            rfl
        rw [hempty] at hfile
        obtain ⟨last, hend⟩ := exists_endsIn_of_isFile hfile
        exact absurd hend (Path.not_endsIn_join_empty p last)
      · obtain ⟨content, hread⟩ := isFile_iff.1 hfile
        obtain ⟨-, hway, hkind⟩ := read?_eq_some_iff.1 hread
        rw [location_join_of_relative habsolute hnil, location_of_same h] at hkind
        have hqp : q.same p := Path.same_symm h
        obtain ⟨front, hjoin, -, -⟩ := Path.exists_allPieces_join (p := q) habsolute hnil
        refine isFile_iff.2 ⟨content, read?_eq_some_iff.2 ⟨?_, ?_, ?_⟩⟩
        · intro hempty
          rw [hempty] at hjoin
          exact hnil (List.append_eq_nil_iff.1 hjoin.symm).2
        · intro v hv
          rw [mem_way_join habsolute hnil] at hv
          refine hway v ((mem_way_join habsolute hnil).2 ?_)
          rcases hv with hv | hv
          · -- where the path leads to, the added pieces start
            refine (mem_way_or_eq_location_of_same hqp (.inl hv)).imp_right ?_
            rintro rfl
            obtain ⟨piece, rest, hpieces⟩ := List.exists_cons_of_ne_nil hnil
            rw [hpieces]
            exact List.mem_cons_self
          · rw [location_of_same h]
            exact .inr hv
        · rw [location_join_of_relative habsolute hnil, hkind]
  rw [Bool.eq_iff_iff]
  exact ⟨himp h, himp (Path.same_symm h)⟩

end Disk

/-! ## Above a path -/

namespace Path

variable {p q r : Path}

/-- A path is another one or above it: its components begin those of the other one.  Above an absolute path are
absolute ones only. -/
def IsAtOrAbove (q p : Path) : Prop :=
  q.components <+: p.components ∧ (p.isAbsolute = true → q.isAbsolute = true)

namespace IsAtOrAbove

theorem refl (p : Path) : p.IsAtOrAbove p := ⟨List.prefix_rfl, id⟩

theorem trans (h : q.IsAtOrAbove p) (h' : r.IsAtOrAbove q) : r.IsAtOrAbove p :=
  ⟨h'.1.trans h.1, fun habsolute => h'.2 (h.2 habsolute)⟩

theorem of_same (h : q.IsAtOrAbove p) {q' p' : Path} (hq : q.same q') (hp : p.same p') : q'.IsAtOrAbove p' := by
  rw [IsAtOrAbove, ← same_iff.1 hq, ← same_iff.1 hp, ← isAbsolute_eq_of_same hq, ← isAbsolute_eq_of_same hp]
  exact h

theorem antisymm (h : q.IsAtOrAbove p) (h' : p.IsAtOrAbove q) : q.same p :=
  same_iff.2 (h.1.eq_of_length_le h'.1.length_le)

end IsAtOrAbove

/-- A path with a parent has a last component, which the parent lacks. -/
theorem components_of_parent? (h : p.parent? = some q) :
    q.components = p.components.dropLast ∧ p.components ≠ [] ∧ p.components ≠ [.root] := by
  refine ⟨?_, ?_, ?_⟩
  · rw [← components_parent, parent, h, Option.getD_some]
  · intro hnil
    rw [parent?, hnil] at h
    cases h
  · intro hroot
    rw [parent?, hroot] at h
    cases h

theorem isAtOrAbove_of_parent? (h : p.parent? = some q) : q.IsAtOrAbove p := by
  obtain ⟨hcomponents, hne, hroot⟩ := components_of_parent? h
  rw [IsAtOrAbove, isAbsolute_iff, isAbsolute_iff, hcomponents]
  refine ⟨List.dropLast_prefix _, fun hhead => ?_⟩
  obtain ⟨rest, hrest⟩ := List.head?_eq_some_iff.1 hhead
  rw [hrest] at hroot ⊢
  cases rest with
  | nil => exact absurd rfl hroot
  | cons next rest => rfl

/-- What is above a path is the path itself, or above its parent. -/
theorem IsAtOrAbove.same_or (h : q.IsAtOrAbove p) {above : Path} (hparent : p.parent? = some above) :
    q.same p ∨ q.IsAtOrAbove above := by
  obtain ⟨hcomponents, hne, -⟩ := components_of_parent? hparent
  obtain ⟨last, hlast⟩ : ∃ last, p.components = above.components ++ [last] :=
    ⟨p.components.getLast hne, by rw [hcomponents, List.dropLast_append_getLast]⟩
  rcases List.prefix_concat_iff.1 (hlast ▸ h.1) with heq | hbegins
  · exact .inl (same_iff.2 (heq.trans hlast.symm))
  · refine .inr ⟨hbegins, fun habsolute => h.2 ?_⟩
    rw [isAbsolute_iff] at habsolute ⊢
    obtain ⟨rest, hrest⟩ := List.head?_eq_some_iff.1 habsolute
    rw [hlast, hrest]
    rfl

/-- Above a path that has no parent is only itself. -/
theorem IsAtOrAbove.same_of_parent? (h : q.IsAtOrAbove p) (hparent : p.parent? = none) : q.same p := by
  obtain ⟨hbegins, habsolute⟩ := h
  rw [same_iff]
  rcases List.eq_nil_or_concat p.components with hnil | ⟨before, last, hlast⟩
  · rw [hnil] at hbegins ⊢
    exact List.prefix_nil.1 hbegins
  · rw [List.concat_eq_append] at hlast
    rw [parent?, hlast, List.getLast?_concat] at hparent
    -- only the root is last without a parent, and it is nowhere but at the start
    obtain rfl : last = .root := by
      cases last with
      | root => rfl
      | here | up | name => cases hparent
    obtain rfl : before = [] := by
      by_contra hne
      obtain ⟨first, rest, rfl⟩ := List.exists_cons_of_ne_nil hne
      exact root_notMem_tail p (by rw [hlast]; simp)
    rw [List.nil_append] at hlast
    rw [isAbsolute_iff, isAbsolute_iff, hlast] at habsolute
    rw [hlast] at hbegins ⊢
    obtain ⟨rest, hrest⟩ := List.head?_eq_some_iff.1 (habsolute rfl)
    rw [hrest, List.cons_prefix_cons, List.prefix_nil] at hbegins
    rw [hrest, hbegins.2]

theorem ancestors_of_parent?_eq_none (h : p.parent? = none) : p.ancestors = [p] := by
  rw [ancestors]
  cases p.components.length with
  | zero => rfl
  | succ fuel => rw [ancestorsWithin, h]

theorem ancestors_of_parent?_eq_some (h : p.parent? = some q) : p.ancestors = p :: q.ancestors := by
  obtain ⟨hcomponents, hne, -⟩ := components_of_parent? h
  obtain ⟨fuel, hfuel⟩ : ∃ fuel, p.components.length = fuel + 1 :=
    Nat.exists_eq_succ_of_ne_zero (by simpa using hne)
  have hlength : q.components.length = fuel := by rw [hcomponents, List.length_dropLast, hfuel]; rfl
  rw [ancestors, ancestors, hfuel, hlength, ancestorsWithin, h]

/-- What holds of paths without a parent, and of a path if it holds of its parent, holds of all paths. -/
theorem parent_induction {motive : Path → Prop} (top : ∀ p : Path, p.parent? = none → motive p)
    (below : ∀ p above : Path, p.parent? = some above → motive above → motive p) (p : Path) : motive p := by
  generalize hlength : p.components.length = n
  induction n using Nat.strongRecOn generalizing p with
  | ind n ih =>
    cases hparent : p.parent? with
    | none => exact top p hparent
    | some above =>
      obtain ⟨hcomponents, hne, -⟩ := components_of_parent? hparent
      refine below p above hparent (ih _ ?_ above rfl)
      rw [hcomponents, List.length_dropLast, ← hlength]
      exact Nat.sub_lt (List.length_pos_iff.2 hne) Nat.one_pos

/-- An ancestor is at or above the path. -/
theorem isAtOrAbove_of_mem_ancestors (h : q ∈ p.ancestors) : q.IsAtOrAbove p := by
  induction p using parent_induction with
  | top p hparent =>
    rw [ancestors_of_parent?_eq_none hparent, List.mem_singleton] at h
    exact h ▸ .refl p
  | below p above hparent ih =>
    rw [ancestors_of_parent?_eq_some hparent, List.mem_cons] at h
    rcases h with rfl | h
    · exact .refl q
    · exact (isAtOrAbove_of_parent? hparent).trans (ih h)

/-- Everything above a path is among its ancestors, in one spelling. -/
theorem exists_mem_ancestors (h : q.IsAtOrAbove p) : ∃ q' ∈ p.ancestors, q.same q' := by
  induction p using parent_induction with
  | top p hparent =>
    rw [ancestors_of_parent?_eq_none hparent]
    exact ⟨p, List.mem_singleton_self p, h.same_of_parent? hparent⟩
  | below p above hparent ih =>
    rw [ancestors_of_parent?_eq_some hparent]
    rcases h.same_or hparent with hsame | habove
    · exact ⟨p, List.mem_cons_self, hsame⟩
    · obtain ⟨q', hmem, hsame⟩ := ih habove
      exact ⟨q', List.mem_cons_of_mem p hmem, hsame⟩

/-- Ancestors stand nearest first. -/
theorem pairwise_ancestors (p : Path) : p.ancestors.Pairwise fun near far => far.IsAtOrAbove near := by
  induction p using parent_induction with
  | top p hparent =>
    rw [ancestors_of_parent?_eq_none hparent]
    exact List.pairwise_singleton _ p
  | below p above hparent ih =>
    rw [ancestors_of_parent?_eq_some hparent, List.pairwise_cons]
    refine ⟨fun q hq => ?_, ih⟩
    exact (isAtOrAbove_of_parent? hparent).trans (isAtOrAbove_of_mem_ancestors hq)

end Path

/-! ## The nearest root -/

namespace Locator

variable {d d' : Disk} {name : String} {fallback p q base base' root root' : Path} {memo : Memo}

/-- A root is the nearest one: it is at `base` or above and holds the marker, and whatever else does is above it;
or nothing does, and it is the fallback. -/
def IsNearest (d : Disk) (name : String) (fallback base root : Path) : Prop :=
  (root.IsAtOrAbove base ∧ d.isFile (root.child name) = true ∧
    ∀ q : Path, q.IsAtOrAbove base → d.isFile (q.child name) = true → q.IsAtOrAbove root) ∨
  (root = fallback ∧ ∀ q : Path, q.IsAtOrAbove base → d.isFile (q.child name) = false)

/-- A search finds the nearest root. -/
theorem isNearest_search (d : Disk) (name : String) (fallback base : Path) :
    IsNearest d name fallback base (search d name fallback base) := by
  rw [search]
  cases hfound : base.ancestors.find? fun directory => d.isFile (directory.child name) with
  | none =>
    refine .inr ⟨rfl, fun q hq => ?_⟩
    obtain ⟨q', hmem, hsame⟩ := Path.exists_mem_ancestors hq
    rw [Disk.isFile_child_of_same hsame]
    simpa using List.find?_eq_none.1 hfound q' hmem
  | some root =>
    obtain ⟨hroot, nearer, further, hancestors, hnearer⟩ := List.find?_eq_some_iff_append.1 hfound
    have hmem : root ∈ base.ancestors := by simp [hancestors]
    refine .inl ⟨Path.isAtOrAbove_of_mem_ancestors hmem, hroot, fun q hq hfile => ?_⟩
    obtain ⟨q', hmem', hsame⟩ := Path.exists_mem_ancestors hq
    rw [Disk.isFile_child_of_same hsame] at hfile
    refine Path.IsAtOrAbove.of_same (q := q') ?_ (Path.same_symm hsame)
      (Path.same_refl _)
    -- what holds a marker does not come before the first that does
    have hpairwise := Path.pairwise_ancestors base
    rw [hancestors, List.pairwise_append, List.pairwise_cons] at hpairwise
    rw [hancestors, List.mem_append, List.mem_cons] at hmem'
    rcases hmem' with hbefore | rfl | hafter
    · exact absurd hfile (by simpa using hnearer q' hbefore)
    · exact .refl q'
    · exact hpairwise.2.1.1 q' hafter

namespace IsNearest

/-- There is one nearest root, in some spelling. -/
theorem same (h : IsNearest d name fallback base root) (h' : IsNearest d name fallback base root') :
    root.same root' := by
  rcases h with ⟨habove, hfile, hnearest⟩ | ⟨rfl, hnone⟩
  · rcases h' with ⟨habove', hfile', hnearest'⟩ | ⟨rfl, hnone'⟩
    · exact (hnearest' root habove hfile).antisymm (hnearest root' habove' hfile')
    · rw [hnone' root habove] at hfile
      cases hfile
  · rcases h' with ⟨habove', hfile', -⟩ | ⟨rfl, -⟩
    · rw [hnone root' habove'] at hfile'
      cases hfile'
    · exact Path.same_refl _

/-- It does not depend on how the start is spelled. -/
theorem of_same (h : IsNearest d name fallback base root) (hbase : base.same base') :
    IsNearest d name fallback base' root := by
  have hiff : ∀ q : Path, q.IsAtOrAbove base' ↔ q.IsAtOrAbove base := fun q =>
    ⟨fun hq => hq.of_same (Path.same_refl _) (Path.same_symm hbase),
      fun hq => hq.of_same (Path.same_refl _) hbase⟩
  simpa only [IsNearest, hiff] using h

end IsNearest

/-! ## Lookups -/

/-- No directory appears or disappears, nor does a marker. -/
def SameLandmarks (name : String) (d d' : Disk) : Prop :=
  ∀ p : Path, d'.isDirectory p = d.isDirectory p ∧ d'.isFile (p.child name) = d.isFile (p.child name)

/-- All roots that are remembered are the nearest ones. -/
def AllNearest (d : Disk) (name : String) (fallback : Path) (memo : Memo) : Prop :=
  ∀ entry ∈ memo, IsNearest d name fallback entry.1 entry.2

theorem IsNearest.of_sameLandmarks (h : IsNearest d name fallback base root)
    (hsame : SameLandmarks name d d') : IsNearest d' name fallback base root := by
  simpa only [IsNearest, fun q => (hsame q).2] using h

/-- Disks with the same landmarks are searched from the same directory. -/
theorem start_of_sameLandmarks (hsame : SameLandmarks name d d') (p : Path) : start d' p = start d p := by
  rw [start, start, (hsame p).1]

/-- A lookup gives the nearest root, whether it is remembered or searched for, and remembers no other. -/
theorem isNearest_find (h : AllNearest d name fallback memo) (p : Path) :
    IsNearest d name fallback (start d p) ((marker name fallback).find d memo p).1 ∧
      AllNearest d name fallback ((marker name fallback).find d memo p).2 := by
  rw [find]
  cases hknown : known? memo (start d p) with
  | some root =>
    refine ⟨?_, h⟩
    obtain ⟨entry, hentry, rfl⟩ := Option.map_eq_some_iff.1 hknown
    have hsame : entry.1.same (start d p) := by simpa using List.find?_some hentry
    exact (h entry (List.mem_of_find?_eq_some hentry)).of_same hsame
  | none =>
    have hsearch := isNearest_search d name fallback (start d p)
    exact ⟨hsearch, List.forall_mem_cons.2 ⟨hsearch, h⟩⟩

/-- Lookups by a marker in any order, each with the root it gave, while what is remembered may be lost and the disk
may change but for directories and markers. -/
inductive History (name : String) (fallback : Path) : Disk → Memo → List (Path × Path) → Prop
  | none (d : Disk) : History name fallback d [] []
  | lookup {d : Disk} {memo : Memo} {answers : List (Path × Path)} (p : Path) :
      History name fallback d memo answers →
      History name fallback d ((marker name fallback).find d memo p).2
        (answers ++ [(p, ((marker name fallback).find d memo p).1)])
  | forget {d : Disk} {memo kept : Memo} {answers : List (Path × Path)} :
      History name fallback d memo answers → kept ⊆ memo → History name fallback d kept answers
  | change {d d' : Disk} {memo : Memo} {answers : List (Path × Path)} :
      History name fallback d memo answers → SameLandmarks name d d' → History name fallback d' memo answers

theorem History.lookup_of_eq {answers : List (Path × Path)} (h : History name fallback d memo answers)
    (p root : Path) (hroot : ((marker name fallback).find d memo p).1 = root) :
    History name fallback d ((marker name fallback).find d memo p).2 (answers ++ [(p, root)]) :=
  hroot ▸ h.lookup p

/-- In a history, all roots that are remembered are the nearest ones, and so are all answers. -/
theorem History.allNearest {answers : List (Path × Path)} (h : History name fallback d memo answers) :
    AllNearest d name fallback memo ∧ ∀ answer ∈ answers, IsNearest d name fallback (start d answer.1) answer.2 := by
  induction h with
  | none d => exact ⟨by simp [AllNearest], by simp⟩
  | lookup p _ ih =>
    obtain ⟨hmemo, hanswers⟩ := ih
    obtain ⟨hroot, hmemo'⟩ := isNearest_find hmemo p
    refine ⟨hmemo', List.forall_mem_append.2 ⟨hanswers, List.forall_mem_singleton.2 hroot⟩⟩
  | forget _ hkept ih => exact ⟨fun entry hentry => ih.1 entry (hkept hentry), ih.2⟩
  | change _ hsame ih =>
    refine ⟨fun entry hentry => (ih.1 entry hentry).of_sameLandmarks hsame, fun answer hanswer => ?_⟩
    rw [start_of_sameLandmarks hsame]
    exact (ih.2 answer hanswer).of_sameLandmarks hsame

end Locator

/-- **Remembered roots.**  Whatever was looked up before and whatever of it is still remembered, a lookup gives the
nearest directory that holds the marker, from the path itself on if it is a directory and from its parent on if it is
not, and the fallback where there is none.  It is the root that a search gives which remembers nothing. -/
theorem remembered_roots_are_nearest (name : String) (fallback : Path) {d : Disk} {memo : Locator.Memo}
    {answers : List (Path × Path)} (h : Locator.History name fallback d memo answers) :
    ∀ p root, (p, root) ∈ answers →
      Locator.IsNearest d name fallback (if d.isDirectory p then p else p.parent) root ∧
      root.same (Locator.search d name fallback (if d.isDirectory p then p else p.parent)) = true := by
  intro p root hanswer
  have hnearest := h.allNearest.2 (p, root) hanswer
  exact ⟨hnearest, hnearest.same (Locator.isNearest_search d name fallback _)⟩

/-- A project within another one, and a file that is in neither. -/
def nestedProjects : Disk :=
  ⟨[("p", .directory [
      ("a", .directory [
        ("b", .directory [("marker", .file "".toUTF8), ("y.yml", .file "".toUTF8)]),
        ("x.yml", .file "".toUTF8)]),
      ("marker", .file "".toUTF8)]),
    ("q", .directory [("z.yml", .file "".toUTF8)])], [], []⟩

/-- A root that was searched for from `/p/a` is remembered for another spelling of that directory, and searched for
again once it is forgotten; elsewhere the inner project is nearer, or there is none. -/
theorem remembered_roots_are_nearest_nested :
    ∃ memo, Locator.History "marker" ⟨.none, ["f"]⟩ nestedProjects memo
        [(⟨.root, ["p", "a", "x.yml"]⟩, ⟨.root, ["p"]⟩), (⟨.root, ["p", "", "a", "."]⟩, ⟨.root, ["p"]⟩),
          (⟨.root, ["p", "a", "b", "y.yml"]⟩, ⟨.root, ["p", "a", "b"]⟩), (⟨.root, ["p", "a"]⟩, ⟨.root, ["p"]⟩),
          (⟨.root, ["q", "z.yml"]⟩, ⟨.none, ["f"]⟩)] ∧
      Locator.IsNearest nestedProjects "marker" ⟨.none, ["f"]⟩ ⟨.root, ["p", "", "a", "."]⟩ ⟨.root, ["p"]⟩ ∧
      Locator.IsNearest nestedProjects "marker" ⟨.none, ["f"]⟩ ⟨.root, ["p", "a", "b"]⟩
        ⟨.root, ["p", "a", "b"]⟩ := by
  have hnone : Locator.History "marker" ⟨.none, ["f"]⟩ nestedProjects [] [] := .none nestedProjects
  have hfirst := hnone.lookup_of_eq ⟨.root, ["p", "a", "x.yml"]⟩ ⟨.root, ["p"]⟩ (by decide +kernel)
  have hspelled := hfirst.lookup_of_eq ⟨.root, ["p", "", "a", "."]⟩ ⟨.root, ["p"]⟩ (by decide +kernel)
  have hinner := hspelled.lookup_of_eq ⟨.root, ["p", "a", "b", "y.yml"]⟩ ⟨.root, ["p", "a", "b"]⟩
    (by decide +kernel)
  have hforgotten := hinner.forget (List.nil_subset _)
  have hagain := hforgotten.lookup_of_eq ⟨.root, ["p", "a"]⟩ ⟨.root, ["p"]⟩ (by decide +kernel)
  have hlast := hagain.lookup_of_eq ⟨.root, ["q", "z.yml"]⟩ ⟨.none, ["f"]⟩ (by decide +kernel)
  have hroots := remembered_roots_are_nearest "marker" ⟨.none, ["f"]⟩ hlast
  have hdirectory : nestedProjects.isDirectory ⟨.root, ["p", "", "a", "."]⟩ = true := by decide +kernel
  have hfile : nestedProjects.isDirectory ⟨.root, ["p", "a", "b", "y.yml"]⟩ = false := by decide +kernel
  have hspelled := (hroots ⟨.root, ["p", "", "a", "."]⟩ ⟨.root, ["p"]⟩ (by simp)).1
  have hinner := (hroots ⟨.root, ["p", "a", "b", "y.yml"]⟩ ⟨.root, ["p", "a", "b"]⟩ (by simp)).1
  rw [hdirectory, if_pos rfl] at hspelled
  rw [hfile, if_neg Bool.false_ne_true] at hinner
  exact ⟨_, hlast, hspelled, hinner⟩

end TestScribe
