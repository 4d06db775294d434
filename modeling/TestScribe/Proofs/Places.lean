/-
# Where normal forms lead

A path leads to a place by its text alone: names lead down, `..` leads up, and at the top `..` stays there.  The
normal form of a path is known by the place that the path leads to from the top and by how far it climbs above its
start.  Of such climbing it keeps one `..` or none: two of them cancel, as if the first were a name.

* `Component.leadTo`, `Disk.location_eq` : the place that the components of a path lead to;
* `Path.overhang` : how many levels a path climbs above its start;
* `Path.normalize_eq` : the normal form of a path;
* `normalized_path_leads_alike` : which relative paths lead to the same place as their normal forms;
* `normal_forms_agree_iff` : which absolute paths have the same normal form.
-/
import TestScribe.Proofs.Disk

namespace TestScribe

/-- The place that a component leads to from another one. -/
def Component.leadTo (place : List String) : Component → List String
  | .root | .here => place
  | .up => place.dropLast
  | .name s => place ++ [s]

namespace Path

/-- How many levels some components climb above their start at most.  A name makes up for one level of what comes
after it. -/
def overhangOf : List Component → Nat
  | [] => 0
  | .up :: rest => overhangOf rest + 1
  | .name _ :: rest => overhangOf rest - 1
  | .root :: rest | .here :: rest => overhangOf rest

/-- How many levels a path climbs above its start at most. -/
def overhang (p : Path) : Nat := overhangOf p.components

/-- What a normal form keeps of so many levels. -/
def climbed (levels : Nat) : List String := if levels % 2 = 1 then [".."] else []

/-! ## Places by components -/

/-- Fillers lead nowhere, so pieces lead to the same place as their components. -/
theorem foldl_advance_eq (pieces : List String) (place : List String) :
    pieces.foldl Disk.advance place = (pieces.filterMap componentOf?).foldl Component.leadTo place := by
  induction pieces generalizing place with
  | nil => rfl
  | cons piece rest ih =>
    rw [List.foldl_cons, ih]
    cases hc : componentOf? piece with
    | none => rw [List.filterMap_cons_none hc, Disk.advance_of_isFiller (componentOf?_eq_none_iff.1 hc)]
    | some c =>
      rw [List.filterMap_cons_some hc, List.foldl_cons]
      obtain ⟨hfiller, ⟨rfl, rfl⟩ | ⟨hup, rfl⟩⟩ := componentOf?_cases hc
      · rfl
      · rw [Disk.advance_of_isName ⟨hfiller, hup⟩]
        rfl

theorem foldl_leadTo_components (p : Path) (place : List String) :
    p.components.foldl Component.leadTo place
      = (p.pieces.filterMap componentOf?).foldl Component.leadTo place := by
  rw [components, List.foldl_append]
  cases p.anchor <;> rfl

theorem overhang_eq (p : Path) : p.overhang = overhangOf (p.pieces.filterMap componentOf?) := by
  rw [overhang, components]
  cases p.anchor <;> rfl

end Path

/-- A path leads to the place that its components lead to. -/
theorem Disk.location_eq (d : Disk) (p : Path) :
    d.location p = p.components.foldl Component.leadTo (d.start p) := by
  rw [location, Path.foldl_advance_eq, Path.filterMap_allPieces, Path.foldl_leadTo_components]

namespace Path

/-- Names that are led to were there, or are components. -/
theorem mem_foldl_leadTo {cs : List Component} {place : List String} {s : String}
    (h : s ∈ cs.foldl Component.leadTo place) : s ∈ place ∨ .name s ∈ cs := by
  induction cs generalizing place with
  | nil => exact .inl h
  | cons c cs ih =>
    rcases ih h with hplace | hname
    · cases c with
      | root | here => exact .inl hplace
      | up => exact .inl (List.mem_of_mem_dropLast hplace)
      | name t =>
        rcases List.mem_append.1 hplace with hplace | ht
        · exact .inl hplace
        · rw [List.mem_singleton.1 ht]
          exact .inr List.mem_cons_self
    · exact .inr (List.mem_cons_of_mem c hname)

/-- Components take as many names away as they climb, and then lead on as from the top. -/
theorem foldl_leadTo_eq (cs : List Component) (place : List String) :
    cs.foldl Component.leadTo place
      = place.take (place.length - overhangOf cs) ++ cs.foldl Component.leadTo [] := by
  induction cs generalizing place with
  | nil => simp [overhangOf]
  | cons c cs ih =>
    rw [List.foldl_cons, List.foldl_cons, ih, ih (Component.leadTo [] c), ← List.append_assoc]
    congr 1
    cases c with
    | root | here => simp [Component.leadTo, overhangOf]
    | up =>
      rw [Component.leadTo, Component.leadTo, List.dropLast_nil, List.take_nil, List.append_nil,
        List.length_dropLast, List.dropLast_eq_take, List.take_take, overhangOf]
      congr 1
      omega
    | name s =>
      rw [Component.leadTo, Component.leadTo, overhangOf, List.length_append, List.nil_append,
        List.length_singleton]
      -- the name itself is taken away if what follows climbs
      by_cases hflat : overhangOf cs = 0
      · simp [hflat]
      · have hle : place.length + 1 - overhangOf cs ≤ place.length := by omega
        rw [List.take_append_of_le_length hle, show 1 - overhangOf cs = 0 by omega, List.take_zero,
          List.append_nil]
        congr 1
        omega

/-! ## Normal forms by their places -/

theorem settle_climbed (levels : Nat) : settle (climbed levels) .up = climbed (levels + 1) := by
  rcases Nat.mod_two_eq_zero_or_one levels with h | h
  · simp [climbed, settle, h, Nat.add_mod]
  · simp [climbed, settle, h, Nat.add_mod]

/-- What components settle to: the names they lead to, held backwards, and behind them what is kept of the levels
that no name makes up for. -/
theorem foldl_settle_eq (cs : List Component) (place : List String) (levels : Nat) :
    cs.foldl settle (place.reverse ++ climbed levels)
      = (cs.foldl Component.leadTo place).reverse
        ++ climbed (levels + (overhangOf cs - place.length)) := by
  induction cs generalizing place levels with
  | nil => simp [overhangOf]
  | cons c cs ih =>
    rw [List.foldl_cons, List.foldl_cons]
    cases c with
    | root | here => exact ih place levels
    | name s =>
      have hsettle : settle (place.reverse ++ climbed levels) (.name s)
          = (place ++ [s]).reverse ++ climbed levels := by simp [settle]
      rw [hsettle, ih, Component.leadTo, overhangOf, List.length_append, List.length_singleton]
      congr 2
      omega
    | up =>
      rcases List.eq_nil_or_concat' place with rfl | ⟨front, last, rfl⟩
      · -- no name is left to take back
        have hsettle := settle_climbed levels
        rw [List.reverse_nil, List.nil_append, hsettle]
        have hrest := ih [] (levels + 1)
        rw [List.reverse_nil, List.nil_append] at hrest
        rw [hrest, Component.leadTo, List.dropLast_nil, overhangOf]
        congr 2
        rw [List.length_nil]
        omega
      · have hsettle : settle ((front ++ [last]).reverse ++ climbed levels) .up
            = front.reverse ++ climbed levels := by simp [settle]
        rw [hsettle, ih, Component.leadTo, List.dropLast_concat, overhangOf, List.length_append,
          List.length_singleton, Nat.add_sub_add_right]

/-- The normal form of a path: what is kept of its climbing, and the names that it leads to from the top. -/
theorem normalize_eq (p : Path) :
    p.normalize = ⟨if p.isAbsolute then .root else .none,
      climbed p.overhang ++ p.components.foldl Component.leadTo []⟩ := by
  have hsettle := foldl_settle_eq p.components [] 0
  have hback : ∀ levels, (climbed levels).reverse = climbed levels := by
    intro levels
    rw [climbed]
    split <;> rfl
  rw [List.reverse_nil, List.nil_append, show climbed 0 = [] from rfl, List.length_nil, Nat.zero_add,
    Nat.sub_zero] at hsettle
  rw [normalize, hsettle, List.reverse_append, List.reverse_reverse, hback, overhang]

/-- The places that a path leads to are made of names. -/
theorem isName_of_mem_leadTo {p : Path} {s : String} (h : s ∈ p.components.foldl Component.leadTo []) :
    IsName s :=
  (isName_of_mem_components ((mem_foldl_leadTo h).resolve_left List.not_mem_nil)).1

/-- Names after what is kept of some climbing tell both. -/
theorem climbed_append_inj {levels levels' : Nat} {names names' : List String}
    (hnames : ∀ name ∈ names, IsName name) (hnames' : ∀ name ∈ names', IsName name) :
    climbed levels ++ names = climbed levels' ++ names' ↔ names = names' ∧ levels % 2 = levels' % 2 := by
  have hup : ∀ {rest list : List String}, (∀ name ∈ list, IsName name) → ".." :: rest ≠ list := by
    rintro rest list hlist rfl
    exact (hlist ".." List.mem_cons_self).2 rfl
  rcases Nat.mod_two_eq_zero_or_one levels with h | h <;> rcases Nat.mod_two_eq_zero_or_one levels' with h' | h'
  · simp [climbed, h, h']
  · simpa [climbed, h, h'] using (hup hnames).symm
  · simpa [climbed, h, h'] using hup hnames'
  · simp [climbed, h, h']

/-- A normal form leads to the same names from the top, and climbs one level at most. -/
theorem leadTo_normalize (p : Path) :
    p.normalize.components.foldl Component.leadTo [] = p.components.foldl Component.leadTo [] ∧
      p.normalize.overhang = p.overhang % 2 := by
  have hnames : ∀ name ∈ p.components.foldl Component.leadTo [], IsName name :=
    fun name => isName_of_mem_leadTo
  generalize hplace : p.components.foldl Component.leadTo [] = names at hnames
  have hfold : ∀ place : List String, (names.map Component.name).foldl Component.leadTo place
      = place ++ names := by
    intro place
    rw [← filterMap_names hnames, ← foldl_advance_eq]
    exact Disk.foldl_advance_names hnames place
  have hflat : overhangOf (names.map Component.name) = 0 := by
    clear hplace hfold hnames
    induction names with
    | nil => rfl
    | cons name names ih => rw [List.map_cons, overhangOf, ih]
  rw [foldl_leadTo_components, overhang_eq, normalize_eq, hplace]
  dsimp only
  rw [List.filterMap_append, filterMap_names hnames]
  rcases Nat.mod_two_eq_zero_or_one p.overhang with h | h
  · simp [climbed, h, hfold, hflat]
  · simp [climbed, h, hfold, hflat, componentOf?, isFiller, Component.leadTo, overhangOf]

end Path

/-! ## Relative paths -/

/-- A relative path takes as many names of its base away as it climbs, and leads on from there. -/
theorem Disk.location_join (d : Disk) {base p : Path} (hbase : base.isAbsolute = true)
    (hp : p.isAbsolute = false) :
    d.location (base.join p) = (d.location base).take ((d.location base).length - p.overhang)
      ++ p.components.foldl Component.leadTo [] := by
  have hne : base ≠ Path.empty := by
    rintro rfl
    cases hbase
  have hcomponents := Path.components_join hne hp
  have habsolute : (base.join p).isAbsolute = true := by
    rw [Path.isAbsolute, decide_eq_true_eq] at hbase ⊢
    obtain ⟨rest, hrest⟩ : ∃ rest, base.components = .root :: rest := by
      rw [Path.components, hbase]
      exact ⟨_, rfl⟩
    exact Path.anchor_of_components (by rw [hcomponents, hrest]; rfl)
  have hstart : ∀ q : Path, q.isAbsolute = true → d.start q = [] := fun q hq => by rw [start, if_pos hq]
  rw [location_eq, location_eq, hstart _ habsolute, hstart _ hbase, hcomponents, List.foldl_append,
    Path.foldl_leadTo_eq, ← Path.overhang_eq, ← Path.foldl_leadTo_components]

/-- **Where the normal form of a relative path leads.**  Taken from a directory that is deep enough for the path,
its normal form leads to the same place if and only if the path climbs one level above its start at most. -/
theorem normalized_path_leads_alike (d : Disk) {base p : Path} (hbase : base.isAbsolute = true)
    (hp : p.isAbsolute = false) (hdeep : p.overhang ≤ (d.location base).length) :
    d.location (base.join p.normalize) = d.location (base.join p) ↔ p.overhang ≤ 1 := by
  have hrelative : p.normalize.isAbsolute = false := by
    rw [Path.normalize, hp]
    rfl
  obtain ⟨hnames, hoverhang⟩ := p.leadTo_normalize
  rw [d.location_join hbase hrelative, d.location_join hbase hp, hnames, hoverhang, List.append_left_inj]
  constructor
  · intro htake
    have hlength := congrArg List.length htake
    rw [List.length_take, List.length_take] at hlength
    omega
  · intro hle
    rw [Nat.mod_eq_of_lt (by omega)]

/-- From `/a/b/c`, a path that climbs one level in two places, and one that climbs two levels. -/
theorem normalized_path_leads_alike_climbing :
    let d : Disk := ⟨[], [], []⟩
    let base := Path.ofString "/a/b/c"
    let once := Path.ofString "x/../../y/../z"
    let twice := Path.ofString "../x/../../z"
    (once.overhang = 1 ∧ d.location (base.join once) = ["a", "b", "z"] ∧
      d.location (base.join once.normalize) = d.location (base.join once)) ∧
    twice.overhang = 2 ∧ d.location (base.join twice) = ["a", "z"] ∧
      d.location (base.join twice.normalize) ≠ d.location (base.join twice) := by
  intro d base once twice
  have honce : once.overhang = 1 := by decide
  have htwice : twice.overhang = 2 := by decide
  have hlocation : (d.location base).length = 3 := by decide
  refine ⟨⟨honce, by decide, ?_⟩, htwice, by decide, ?_⟩
  · exact (normalized_path_leads_alike d rfl (by decide) (by omega)).2 (by omega)
  · intro hsame
    have hle := (normalized_path_leads_alike d rfl (by decide) (by omega)).1 hsame
    omega

/-- A normal form leads elsewhere: two `..` in a row are lost. -/
theorem normalized_path_leads_elsewhere :
    ¬ ∀ (d : Disk) (names : List String) (base p : Path), base.GoesDown names → p.isAbsolute = false →
      p.overhang ≤ names.length → d.location (base.join p.normalize) = d.location (base.join p) := by
  intro h
  have hbase : (Path.ofString "/a/b").GoesDown ["a", "b"] := by
    rw [Path.GoesDown]
    decide
  have hsame := h ⟨[], [], []⟩ ["a", "b"] (.ofString "/a/b") (.ofString "../../c") hbase (by decide)
    (by decide)
  exact absurd hsame (by decide)

/-! ## Absolute paths -/

/-- **When normal forms agree.**  Two absolute paths have the same normal form if and only if they lead to the same
place and both climb above the top by an even number of levels, or both by an odd one. -/
theorem normal_forms_agree_iff (d : Disk) {p q : Path} (hp : p.isAbsolute = true) (hq : q.isAbsolute = true) :
    p.normalize = q.normalize ↔ d.location p = d.location q ∧ p.overhang % 2 = q.overhang % 2 := by
  have hlocation : ∀ r : Path, r.isAbsolute = true → d.location r = r.components.foldl Component.leadTo [] := by
    intro r hr
    rw [Disk.location_eq, Disk.start, if_pos hr]
  rw [hlocation p hp, hlocation q hq, Path.normalize_eq, Path.normalize_eq, hp, hq, Path.mk.injEq,
    and_iff_right rfl]
  exact Path.climbed_append_inj (fun _ => Path.isName_of_mem_leadTo) fun _ => Path.isName_of_mem_leadTo

/-- Three paths to one place: the first two have one normal form, the last one, which climbs one level above the
top, has another. -/
theorem normal_forms_agree_iff_climbing :
    let d : Disk := ⟨[], [], []⟩
    let p := Path.ofString "/x/./../a"
    let q := Path.ofString "//../x/../../a"
    let r := Path.ofString "/../a"
    (d.location p = ["a"] ∧ d.location q = ["a"] ∧ d.location r = ["a"]) ∧
      p.normalize = q.normalize ∧ p.normalize ≠ r.normalize := by
  intro d p q r
  refine ⟨by decide, ?_, ?_⟩
  · exact (normal_forms_agree_iff d rfl rfl).2 (by decide)
  · intro hsame
    exact absurd ((normal_forms_agree_iff d rfl rfl).1 hsame).2 (by decide)

/-- Paths to one place may have different normal forms: a `..` at the top is kept. -/
theorem normal_forms_differ_at_top :
    ¬ ∀ (d : Disk) (p q : Path), p.isAbsolute = true → q.isAbsolute = true →
      (p.normalize = q.normalize ↔ d.location p = d.location q) := by
  intro h
  have hsame := h ⟨[], [], []⟩ (.ofString "/..") (.ofString "/") rfl rfl
  exact absurd (hsame.2 (by decide)) (by decide)

end TestScribe
