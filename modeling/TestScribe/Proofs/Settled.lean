/-
# The shape of normal forms

A normal form has no `.`, and one `..` at most, which comes before all names.  Paths of this shape are those that
are the same as their normal forms, so that a second run changes nothing, neither in a path nor in its text.  The
paths that references name and the sources that a session keeps are all in normal form, and among such paths those
that are the same are equal.

* `Path.HasNormalShape`, `Path.hasNormalShape_iff` : the shape, and how such a path is composed;
* `Path.same_normalize_iff` : a path of this shape is the same as its normal form;
* `Path.ofString_text_of_normal` : a normal form is read back from its text;
* `normal_forms_stay` : the shape of normal forms, and where they are relied on.
-/
import TestScribe.Proofs.Atomicity
import TestScribe.Proofs.Callees

namespace TestScribe

namespace Path

/-! ## The shape -/

/-- The components of a path have no `.`, and one `..` at most, which is the first one behind the top. -/
structure HasNormalShape (p : Path) : Prop where
  here : .here ∉ p.components
  once : p.components.count .up ≤ 1
  first : ∀ front back, p.components = front ++ .up :: back → front = [] ∨ front = [.root]

/-- Components behind the start of a path are names, where none of them is `..`. -/
theorem exists_names_of_up_notMem {pieces : List String} {cs : List Component}
    (hcs : cs ⊆ pieces.filterMap componentOf?) (h : .up ∉ cs) : ∃ names : List String, cs = names.map .name := by
  refine ⟨cs.map Component.text, ?_⟩
  rw [List.map_map]
  refine (List.map_id cs).symm.trans (List.map_congr_left fun c hc => ?_)
  obtain ⟨piece, -, hpiece⟩ := List.mem_filterMap.1 (hcs hc)
  rcases (componentOf?_cases hpiece).2 with ⟨-, rfl⟩ | ⟨-, rfl⟩
  · exact absurd hc h
  · rfl

/-- A path of this shape is composed of the top or nothing, a `..` or nothing, and names. -/
theorem hasNormalShape_iff {p : Path} : p.HasNormalShape ↔ ∃ (tops ups : List Component) (names : List String),
    (tops = [] ∨ tops = [.root]) ∧ (ups = [] ∨ ups = [.up]) ∧
      p.components = tops ++ (ups ++ names.map .name) := by
  constructor
  · rintro ⟨hhere, honce, hfirst⟩
    obtain ⟨tops, htops, hanchor⟩ : ∃ tops, (tops = [] ∨ tops = [.root]) ∧ Anchor.components p.anchor = tops := by
      cases hanchor : p.anchor with
      | root => exact ⟨_, .inr rfl, rfl⟩
      | none => exact ⟨_, .inl rfl, rfl⟩
      | here =>
        rw [components, hanchor] at hhere
        exact absurd List.mem_cons_self hhere
    rw [components, hanchor] at honce hfirst ⊢
    by_cases hup : .up ∈ p.pieces.filterMap componentOf?
    · obtain ⟨front, back, hsteps⟩ := List.append_of_mem hup
      -- nothing but the top comes before the `..`, and the top is no piece
      have hnil : front = [] := by
        have hroot : .root ∉ front := fun hroot => root_notMem_filterMap p.pieces (by rw [hsteps]; simp [hroot])
        rcases hfirst (tops ++ front) back (by rw [hsteps, List.append_assoc]) with hfront | hfront
        · exact (List.append_eq_nil_iff.1 hfront).2
        · rcases List.append_eq_singleton_iff.1 hfront with ⟨-, rfl⟩ | ⟨-, hfront⟩
          · exact absurd List.mem_cons_self hroot
          · exact hfront
      subst hnil
      have hback : .up ∉ back := by
        rw [hsteps, List.nil_append, List.count_append, List.count_cons_self] at honce
        exact List.count_eq_zero.1 (by omega)
      obtain ⟨names, rfl⟩ := exists_names_of_up_notMem (by rw [hsteps]; simp) hback
      exact ⟨tops, [.up], names, htops, .inr rfl, by rw [hsteps]; rfl⟩
    · obtain ⟨names, hnames⟩ := exists_names_of_up_notMem (List.Subset.refl _) hup
      exact ⟨tops, [], names, htops, .inl rfl, by rw [hnames]; rfl⟩
  · rintro ⟨tops, ups, names, htops, hups, hcomponents⟩
    have hup : .up ∉ names.map Component.name := by simp
    refine ⟨?_, ?_, ?_⟩
    · rw [hcomponents]
      rcases htops with rfl | rfl <;> rcases hups with rfl | rfl <;> simp
    · rw [hcomponents, List.count_append, List.count_append, List.count_eq_zero_of_not_mem hup]
      rcases htops with rfl | rfl <;> rcases hups with rfl | rfl <;> decide
    · intro front back hfront
      rw [hcomponents] at hfront
      rcases List.append_eq_append_iff.1 hfront with ⟨more, rfl, hmore⟩ | ⟨more, rfl, -⟩
      · have hnil : more = [] := by
          rcases hups with rfl | rfl
          · exact absurd (by rw [← List.nil_append (names.map _), hmore]; simp) hup
          · cases more with
            | nil => rfl
            | cons c more =>
              rw [List.singleton_append, List.cons_append, List.cons.injEq] at hmore
              exact absurd (by rw [hmore.2]; simp) hup
        rwa [hnil, List.append_nil]
      · rcases htops with htops | htops
        · exact .inl (List.append_eq_nil_iff.1 htops).1
        · exact (List.append_eq_singleton_iff.1 htops).imp And.left And.left

/-! ## Normal forms -/

theorem hasNormalShape_normalize (p : Path) : p.normalize.HasNormalShape := by
  obtain ⟨hanchor, ups, names, hups, hnames, hpieces⟩ := exists_names_of_normal (normalize_normalize p)
  refine hasNormalShape_iff.2 ⟨Anchor.components p.normalize.anchor, ups.filterMap componentOf?, names, ?_, ?_, ?_⟩
  · cases h : p.normalize.anchor with
    | root => exact .inr rfl
    | none => exact .inl rfl
    | here => exact absurd h hanchor
  · rcases hups with rfl | rfl
    · exact .inl rfl
    · exact .inr rfl
  · rw [components, hpieces, List.filterMap_append, filterMap_names hnames]

/-- The paths of this shape are those that are the same as their normal forms. -/
theorem same_normalize_iff {p : Path} : p.normalize.same p = true ↔ p.HasNormalShape := by
  rw [same_iff]
  constructor
  · intro hsame
    obtain ⟨hhere, honce, hfirst⟩ := p.hasNormalShape_normalize
    rw [hsame] at hhere honce hfirst
    exact ⟨hhere, honce, hfirst⟩
  · intro hshape
    obtain ⟨tops, ups, names, htops, hups, hcomponents⟩ := hasNormalShape_iff.1 hshape
    -- a path with these components whose pieces are settled is the normal form
    obtain ⟨q, hq, hsame⟩ : ∃ q : Path, q.normalize = q ∧ q.components = p.components := by
      have hnames : ∀ name ∈ names, IsName name := fun name hname =>
        (isName_of_mem_components (by rw [hcomponents]; simp [hname])).1
      obtain ⟨start, hstart, hsettled⟩ : ∃ start, start.filterMap componentOf? = ups ∧ (start = [] ∨ start = [".."]) := by
        rcases hups with rfl | rfl
        · exact ⟨[], rfl, .inl rfl⟩
        · exact ⟨[".."], by decide, .inr rfl⟩
      obtain ⟨anchor, hanchor, hhere⟩ : ∃ anchor, Anchor.components anchor = tops ∧ anchor ≠ .here := by
        rcases htops with rfl | rfl
        · exact ⟨.none, rfl, nofun⟩
        · exact ⟨.root, rfl, nofun⟩
      have hdone : IsSettled (names.reverse ++ start) :=
        ⟨names.reverse, start, rfl, fun name hname => hnames name (List.mem_reverse.1 hname), hsettled⟩
      refine ⟨_, normalize_of_isSettled hdone hhere, ?_⟩
      have hback : start.reverse = start := by rcases hsettled with rfl | rfl <;> rfl
      rw [components, hanchor, hcomponents, List.reverse_append, List.reverse_reverse, hback, List.filterMap_append,
        hstart, filterMap_names hnames]
    rw [← normalize_eq_of_same (same_iff.2 hsame), hq, hsame]

/-- A normal form is read back from its text. -/
theorem ofString_text_of_normal {p : Path} (hplain : p.IsPlain) (hp : p.normalize = p) : ofString p.text = p := by
  cases hname : p.fileName? with
  | some name => exact (isWritten_of_normal hplain hp).ofString_text (endsIn_of_normal hp hname)
  | none =>
    -- four normal forms do not end in a name
    have hfour : ∀ cs ∈ [[], [.root], [.up], [.root, .up]], ∃ s, (ofString s).components = cs ∧
        (ofString s).normalize = ofString s := by
      simp only [List.forall_mem_cons]
      exact ⟨⟨"", by decide⟩, ⟨"/", by decide⟩, ⟨"..", by decide⟩, ⟨"/..", by decide⟩, nofun⟩
    obtain ⟨s, hs, hnormal⟩ := hfour _ (components_of_normal_of_fileName?_eq_none hp hname)
    rw [← eq_of_same_of_normal hnormal hp (same_iff.2 hs), text_ofString]

end Path

/-! ## Where normal forms are relied on -/

/-- A reference names a path in normal form. -/
theorem Make.normalize_of_reference {referrer p : Path} {raw : String} {s t : Session}
    (h : Make.reference referrer raw s = .ok p t) : p.normalize = p :=
  ((Make.looksUp_reference referrer raw).ensures.ok h).2.1

/-- A run does not depend on whether its source is in normal form. -/
theorem Make.testcaseWith_normalize (nested : Value → Path → Make Path) (raw : Value) (source : Path)
    (outputDirectory : Option Path) :
    Make.testcaseWith nested raw source.normalize outputDirectory
      = Make.testcaseWith nested raw source outputDirectory := by
  unfold Make.testcaseWith
  rw [Path.normalize_normalize]

/-- The sources that a session keeps are in normal form. -/
theorem Session.normalize_source_of_mem_made {settings : Settings} {locator : Locator} {disk : Disk}
    {orders : List Order} {entry : Path × Made}
    (h : entry ∈ (Session.after { settings, locator, disk } orders).made) :
    entry.2.source.normalize = entry.2.source := by
  have hlogged := logged_after settings locator disk orders
  rw [← Chronicle.session_after ⟨{ settings, locator, disk }, []⟩] at h
  obtain ⟨r, hr, hmade, -⟩ := hlogged.made entry h
  rw [← hmade]
  exact (hlogged.origins r hr).normal

/-- **Normal forms.**  The normal form of any path has no `.`, and one `..` at most, which is the first component
behind the top; normalizing it again changes nothing, also if it is read from its text, and a path is the same as its
normal form exactly if it has this shape.  So a run may normalize its source again; a path that a reference names is
in normal form, and it is the same as a source that a session keeps exactly if the two are equal. -/
theorem normal_forms_stay (p : Path) :
    p.normalize.HasNormalShape ∧ p.normalize.normalize = p.normalize ∧
    (p.IsPlain → Path.ofString p.normalize.text = p.normalize) ∧
    (p.normalize.same p = true ↔ p.HasNormalShape) ∧
    (∀ nested raw outputDirectory, Make.testcaseWith nested raw p.normalize outputDirectory
      = Make.testcaseWith nested raw p outputDirectory) ∧
    ∀ (settings : Settings) (locator : Locator) (disk : Disk) (orders : List Order) (entry : Path × Made),
      entry ∈ (Session.after { settings, locator, disk } orders).made →
      ∀ (referrer q : Path) (raw : String) (s t : Session), Make.reference referrer raw s = .ok q t →
        q.normalize = q ∧ (entry.2.source.same q = true ↔ entry.2.source = q) := by
  refine ⟨p.hasNormalShape_normalize, p.normalize_normalize, fun hplain => ?_, Path.same_normalize_iff,
    fun nested raw => Make.testcaseWith_normalize nested raw p, ?_⟩
  · exact Path.ofString_text_of_normal (Path.isPlain_normalize hplain) p.normalize_normalize
  · intro settings locator disk orders entry hentry referrer q raw s t hreference
    have hq := Make.normalize_of_reference hreference
    refine ⟨hq, Path.eq_of_same_of_normal (Session.normalize_source_of_mem_made hentry) hq, ?_⟩
    rintro rfl
    exact Path.same_iff.2 rfl

/-- A path that climbs above its start three times, and a reference to a document that a session has made. -/
theorem normal_forms_stay_climbing :
    let p := Path.ofString "x/../.././/../../y/."
    let s := Session.after { settings := {}, locator := .fixed (.ofString "/p"), disk := oneTestcase }
      [⟨caller "b.json", "/p/a.json", none⟩]
    (p.normalize.text = "../y" ∧ p.normalize.HasNormalShape ∧ p.normalize.normalize = p.normalize ∧
      Path.ofString "../y" = p.normalize) ∧
    ∃ entry ∈ s.made, ∃ q t, Make.reference (.ofString "/p/a.json") "./x/../b.json" s = .ok q t ∧
      q.normalize = q ∧ entry.2.source = q := by
  intro p s
  obtain ⟨hshape, hagain, htext, -, -, hkept⟩ := normal_forms_stay p
  have hwritten : p.normalize.text = "../y" := by decide +kernel
  refine ⟨⟨hwritten, hshape, hagain, hwritten ▸ htext (Path.isPlain_ofString _)⟩, ?_⟩
  have hpasses : passes (fun q _ => s.made.any fun entry => entry.2.source.same q)
      (Make.reference (.ofString "/p/a.json") "./x/../b.json" s) = true := by
    decide +kernel
  obtain ⟨q, t, hreference, hany⟩ := exists_of_passes hpasses
  obtain ⟨entry, hentry, hsame⟩ := List.any_eq_true.1 hany
  obtain ⟨hq, hequal⟩ := hkept _ _ _ _ entry hentry _ q _ s t hreference
  exact ⟨entry, hentry, q, t, hreference, hq, hequal.1 hsame⟩

end TestScribe
