/-
# Disks as maps of places

A place is a list of names from the top.  What the operations on a disk do is said by what is at each
place before and after: nothing, a file with its content, or a directory.  A path passes some places, and
leads to the last one.

* `Kind`, `Disk.kind?` : what is at a place;
* `Disk.way`, `Disk.location` : the places that a path passes, and the one it leads to;
* `Disk.read?_eq_some_iff`, `Disk.target?_eq_some_iff` : reading and finding room for a file, by places;
* `Disk.kind?_of_place`, `Disk.kind?_of_remove`, `Disk.kind?_of_removeTree` : the ways in which a disk
  changes;
* `Disk.filePaths` : the paths of files, of which there are at most four for each file.
-/
import TestScribe.Disk
import TestScribe.Proofs.Outcome
import TestScribe.Proofs.Path

namespace TestScribe

/-- What is at a place. -/
inductive Kind where
  | file (content : ByteArray)
  | directory
deriving DecidableEq

/-! ## Entries -/

namespace Entry

/-- An entry without what is below it. -/
def kind : Entry → Kind
  | .file content => .file content
  | .directory _ => .directory

theorem find?_put (name other : String) (e : Entry) (entries : List (String × Entry)) :
    find? other (put name e entries) = if other = name then some e else find? other entries := by
  induction entries with
  | nil => by_cases h : other = name <;> simp [put, find?, h, Ne.symm]
  | cons entry rest ih =>
    obtain ⟨n, e'⟩ := entry
    rw [put]
    by_cases hother : other = name
    · subst hother
      rw [if_pos rfl] at ih ⊢
      split_ifs with hn
      · simp [find?]
      · simp [find?]
      · simp [find?, hn, ih]
    · have hname : ¬ name = other := fun h => hother h.symm
      split_ifs with hn
      · simp [find?, hname, hn]
      · simp [find?, hname]
      · simp [find?, ih, hother]

theorem find?_drop (name other : String) (entries : List (String × Entry)) :
    find? other (drop name entries) = if other = name then none else find? other entries := by
  induction entries with
  | nil => simp [drop, find?]
  | cons entry rest ih =>
    obtain ⟨n, e⟩ := entry
    rw [drop] at ih ⊢
    by_cases hn : n = name
    · rw [List.filter_cons_of_neg (by simpa using hn), ih, find?, hn]
      by_cases hother : other = name
      · simp [hother]
      · simp [hother, Ne.symm hother]
    · rw [List.filter_cons_of_pos (by simpa using hn), find?, find?, ih]
      by_cases hother : other = name
      · simp [hother, hn]
      · simp [hother]

/-- What is at some names, from a directory with the given entries. -/
def kindAt? (entries : List (String × Entry)) (names : List String) : Option Kind :=
  (at? entries names).map kind

theorem kindAt?_nil (entries : List (String × Entry)) : kindAt? entries [] = some .directory := rfl

theorem kindAt?_cons (entries : List (String × Entry)) (name : String) (more : List String) :
    kindAt? entries (name :: more) = match find? name entries with
      | none => none
      | some (.file content) => if more = [] then some (.file content) else none
      | some (.directory inner) => kindAt? inner more := by
  cases more with
  | nil =>
    rw [kindAt?, at?]
    cases find? name entries with
    | none => rfl
    | some e => cases e <;> rfl
  | cons next more =>
    rw [kindAt?, at?]
    · cases find? name entries with
      | none => rfl
      | some e => cases e <;> rfl
    · simp

/-- Whatever is below a place, the place is a directory. -/
theorem kindAt?_of_append {entries : List (String × Entry)} {above below : List String}
    (h : kindAt? entries (above ++ below) ≠ none) (hne : below ≠ []) :
    kindAt? entries above = some .directory := by
  induction above generalizing entries with
  | nil => rfl
  | cons name above ih =>
    rw [List.cons_append, kindAt?_cons] at h
    rw [kindAt?_cons]
    cases hfind : find? name entries with
    | none => simp [hfind] at h
    | some e =>
      cases e with
      | file content => simp [hfind, hne] at h
      | directory inner =>
        rw [hfind] at h
        exact ih h

/-- A file or an empty directory takes a place in a directory, where no directory was. -/
theorem kindAt?_update_some {entries : List (String × Entry)} {names : List String} {e : Entry}
    (hne : names ≠ []) (hparent : kindAt? entries names.dropLast = some .directory)
    (hold : kindAt? entries names ≠ some .directory) (he : ∀ inner, e = .directory inner → inner = [])
    (other : List String) :
    kindAt? (update (some e) entries names) other
      = if other = names then some e.kind else kindAt? entries other := by
  induction names generalizing entries other with
  | nil => exact absurd rfl hne
  | cons name more ih =>
    cases other with
    | nil => rw [kindAt?_nil, kindAt?_nil, if_neg (by simp)]
    | cons o rest =>
      cases more with
      | nil =>
        rw [update, kindAt?_cons, find?_put]
        by_cases ho : o = name
        · subst ho
          rw [if_pos rfl]
          by_cases hrest : rest = []
          · subst hrest
            cases e <;> simp [kind, kindAt?_nil]
          · -- Nothing is below a file, nor below an empty directory.
            rw [if_neg (by simpa using hrest), kindAt?_cons]
            obtain ⟨r, rest, rfl⟩ := List.exists_cons_of_ne_nil hrest
            have hnew : (match some e with
                | none => none
                | some (.file content) => if r :: rest = [] then some (.file content) else none
                | some (.directory inner) => kindAt? inner (r :: rest)) = (none : Option Kind) := by
              cases e with
              | file content => simp
              | directory inner => simp [he inner rfl, kindAt?_cons, find?]
            rw [hnew]
            rw [kindAt?_cons] at hold
            cases hfind : find? o entries with
            | none => rfl
            | some old =>
              cases old with
              | file content => simp
              | directory inner => simp [hfind, kindAt?_nil] at hold
        · rw [if_neg ho, if_neg (by simp [ho]), kindAt?_cons]
      | cons next more =>
        rw [List.dropLast_cons_cons, kindAt?_cons] at hparent
        cases hfind : find? name entries with
        | none => simp [hfind] at hparent
        | some old =>
          cases old with
          | file content => simp [hfind] at hparent
          | directory inner =>
            rw [hfind] at hparent
            rw [kindAt?_cons, hfind] at hold
            rw [update, hfind, kindAt?_cons, find?_put]
            · by_cases ho : o = name
              · subst ho
                rw [if_pos rfl, kindAt?_cons, hfind]
                simpa using ih (by simp) hparent hold rest
              · rw [if_neg ho, if_neg (by simp [ho]), kindAt?_cons]
            · simp

/-- Whatever is at a place leaves it, with all that is below. -/
theorem kindAt?_update_none {entries : List (String × Entry)} {names : List String} (hne : names ≠ [])
    (other : List String) :
    kindAt? (update none entries names) other
      = if names <+: other then none else kindAt? entries other := by
  induction names generalizing entries other with
  | nil => exact absurd rfl hne
  | cons name more ih =>
    cases other with
    | nil => rw [kindAt?_nil, kindAt?_nil, if_neg (by simp)]
    | cons o rest =>
      by_cases ho : o = name
      swap
      · -- the place is not on the way
        rw [if_neg (by rw [List.cons_prefix_cons]; exact fun h => ho h.1.symm), kindAt?_cons, kindAt?_cons]
        congr 1
        cases more with
        | nil => rw [update, find?_drop, if_neg ho]
        | cons next more =>
          rw [update]
          · split
            · rw [find?_put, if_neg ho]
            · rfl
          · simp
      subst ho
      cases more with
      | nil => rw [update, kindAt?_cons, find?_drop, if_pos rfl, if_pos (by simp)]
      | cons next more =>
        have hcons : o :: next :: more <+: o :: rest ↔ next :: more <+: rest := by
          rw [List.cons_prefix_cons, eq_self_iff_true, true_and]
        rw [update, kindAt?_cons entries]
        · cases hfind : find? o entries with
          | none => simp [kindAt?_cons, hfind]
          | some old =>
            cases old with
            | file content =>
              have hrest : next :: more <+: rest → rest ≠ [] := by
                rintro ⟨below, rfl⟩
                simp
              rw [kindAt?_cons, hfind]
              by_cases h : next :: more <+: rest
              · simp [h, hrest h]
              · simp [h]
            | directory inner =>
              dsimp only
              rw [kindAt?_cons, find?_put, if_pos rfl]
              dsimp only
              rw [ih (by simp) rest]
              simp only [hcons]
        · simp

/-- A file leaves its place. -/
theorem kindAt?_update_none_of_file {entries : List (String × Entry)} {names : List String}
    {content : ByteArray} (hold : kindAt? entries names = some (.file content)) (other : List String) :
    kindAt? (update none entries names) other
      = if other = names then none else kindAt? entries other := by
  have hne : names ≠ [] := by
    rintro rfl
    simp [kindAt?_nil] at hold
  rw [kindAt?_update_none hne]
  by_cases hother : other = names
  · rw [if_pos hother, if_pos (hother ▸ List.prefix_rfl)]
  · rw [if_neg hother]
    split
    · next h =>
      -- nothing is below a file
      obtain ⟨below, rfl⟩ := h
      by_contra hbelow
      rw [kindAt?_of_append (Ne.symm hbelow) fun hnil => hother (by simp [hnil])] at hold
      cases hold
    · rfl

mutual

/-- The places of the files of an entry, which is at the given place. -/
def places (above : List String) : Entry → List (List String)
  | .file _ => [above]
  | .directory entries => placesOf above entries

/-- The places of the files of some entries, which are in the directory at the given place. -/
def placesOf (above : List String) : List (String × Entry) → List (List String)
  | [] => []
  | (name, e) :: rest => places (above ++ [name]) e ++ placesOf above rest

end

mutual

theorem length_places (above : List String) : ∀ e : Entry, (places above e).length = e.count
  | .file _ => by rw [places, count]; rfl
  | .directory entries => by rw [places, count, length_placesOf above entries]

theorem length_placesOf (above : List String) :
    ∀ entries : List (String × Entry), (placesOf above entries).length = countAll entries
  | [] => by rw [placesOf, countAll]; rfl
  | (name, e) :: rest => by
    rw [placesOf, countAll, List.length_append, length_places (above ++ [name]) e,
      length_placesOf above rest]

end

theorem mem_placesOf_of_find? {above place : List String} {name : String} {e : Entry}
    {entries : List (String × Entry)} (hfind : find? name entries = some e)
    (h : place ∈ places (above ++ [name]) e) : place ∈ placesOf above entries := by
  induction entries with
  | nil => simp [find?] at hfind
  | cons entry rest ih =>
    obtain ⟨n, e'⟩ := entry
    rw [placesOf, List.mem_append]
    rw [find?] at hfind
    split_ifs at hfind with hn
    · cases hfind
      rw [hn]
      exact .inl h
    · exact .inr (ih hfind)

/-- Wherever a file is, its place is among those of the files. -/
theorem mem_placesOf_of_kindAt? {above names : List String} {entries : List (String × Entry)}
    {content : ByteArray} (h : kindAt? entries names = some (.file content)) :
    above ++ names ∈ placesOf above entries := by
  induction names generalizing above entries with
  | nil => simp [kindAt?_nil] at h
  | cons name more ih =>
    rw [kindAt?_cons] at h
    cases hfind : find? name entries with
    | none => simp [hfind] at h
    | some e =>
      apply mem_placesOf_of_find? hfind
      rw [hfind] at h
      cases e with
      | file content' =>
        have hmore : more = [] := by
          by_contra hne
          simp [hne] at h
        simp [places, hmore]
      | directory inner =>
        have hinner : above ++ [name] ++ more ∈ placesOf (above ++ [name]) inner := ih h
        rw [List.append_assoc] at hinner
        exact hinner

end Entry

/-! ## Places -/

namespace Disk

variable {d d' : Disk}

/-- What is at a place. -/
def kind? (d : Disk) (place : List String) : Option Kind := Entry.kindAt? d.top place

theorem kind?_eq_map (d : Disk) (place : List String) :
    d.kind? place = (d.at? place).map Entry.kind := rfl

theorem kind?_nil (d : Disk) : d.kind? [] = some .directory := rfl

theorem isSome_at? (d : Disk) (place : List String) : (d.at? place).isSome = (d.kind? place).isSome := by
  rw [kind?_eq_map, Option.isSome_map]

theorem hasDirectory_iff {place : List String} :
    d.hasDirectory place = true ↔ d.kind? place = some .directory := by
  rw [hasDirectory, kind?_eq_map]
  cases d.at? place with
  | none => simp
  | some e => cases e <;> simp [Entry.kind]

/-- Whatever is below a place, the place is a directory. -/
theorem kind?_of_append {above below : List String} (h : d.kind? (above ++ below) ≠ none)
    (hne : below ≠ []) : d.kind? above = some .directory :=
  Entry.kindAt?_of_append h hne

theorem kind?_dropLast {place : List String} (h : d.kind? place ≠ none) :
    d.kind? place.dropLast ≠ none := by
  rcases List.eq_nil_or_concat place with rfl | ⟨above, last, rfl⟩
  · exact h
  · rw [List.concat_eq_append] at h ⊢
    rw [List.dropLast_concat, kind?_of_append h (by simp)]
    simp

/-- The place that a piece leads to from another one. -/
def advance (place : List String) (piece : String) : List String :=
  if Path.isFiller piece then place
  else if piece = ".." then place.dropLast
  else place ++ [piece]

/-- The places that some pieces pass before they come to the last one. -/
def wayFrom (place : List String) : List String → List (List String)
  | [] => []
  | piece :: rest => place :: wayFrom (advance place piece) rest

/-- The place that a path leads to. -/
def location (d : Disk) (p : Path) : List String := p.allPieces.foldl advance (d.start p)

/-- The places that a path passes before it comes to the last one. -/
def way (d : Disk) (p : Path) : List (List String) := wayFrom (d.start p) p.allPieces

theorem advance_of_isName {piece : String} (h : Path.IsName piece) (place : List String) :
    advance place piece = place ++ [piece] := by
  rw [advance, h.1, if_neg Bool.false_ne_true, if_neg h.2]

theorem advance_of_isFiller {piece : String} (h : Path.isFiller piece) (place : List String) :
    advance place piece = place := by
  rw [advance, if_pos h]

theorem wayFrom_append (place : List String) (pieces more : List String) :
    wayFrom place (pieces ++ more)
      = wayFrom place pieces ++ wayFrom (pieces.foldl advance place) more := by
  induction pieces generalizing place with
  | nil => rfl
  | cons piece pieces ih => rw [List.cons_append, wayFrom, ih, wayFrom, List.foldl_cons, List.cons_append]

/-- A step leads on from a directory to something that is there. -/
theorem step?_eq_some_iff {place place' : List String} {piece : String} :
    d.step? place piece = some place' ↔
      d.kind? place = some .directory ∧ place' = advance place piece ∧ d.kind? place' ≠ none := by
  rw [step?, advance, ← hasDirectory_iff]
  cases hdirectory : d.hasDirectory place with
  | false => simp
  | true =>
    have hkind := hasDirectory_iff.1 hdirectory
    have habove : d.kind? place.dropLast ≠ none := kind?_dropLast (by simp [hkind])
    rw [Bool.not_true, if_neg Bool.false_ne_true, isSome_at?]
    split_ifs with hfiller hup hthere
    · simp only [Option.some.injEq, true_and]
      constructor
      · rintro rfl
        exact ⟨rfl, by simp [hkind]⟩
      · exact fun h => h.1.symm
    · simp only [Option.some.injEq, true_and]
      constructor
      · rintro rfl
        exact ⟨rfl, habove⟩
      · exact fun h => h.1.symm
    · simp only [Option.some.injEq, true_and]
      constructor
      · rintro rfl
        exact ⟨rfl, by simpa [Option.isSome_iff_ne_none] using hthere⟩
      · exact fun h => h.1.symm
    · simp only [true_and, false_iff, not_and, not_not]
      rintro rfl
      simpa using hthere

/-- Some pieces lead somewhere if they pass directories only. -/
theorem foldlM_step?_eq_some_iff {place place' : List String} {pieces : List String} :
    pieces.foldlM d.step? place = some place' ↔
      (∀ v ∈ wayFrom place pieces, d.kind? v = some .directory) ∧
        place' = pieces.foldl advance place ∧ (pieces = [] ∨ d.kind? place' ≠ none) := by
  induction pieces generalizing place with
  | nil => simp [wayFrom, eq_comm]
  | cons piece pieces ih =>
    rw [List.foldlM_cons, wayFrom, List.foldl_cons, List.forall_mem_cons]
    constructor
    · intro h
      obtain ⟨mid, hstep, hrest⟩ := Option.bind_eq_some_iff.1 h
      obtain ⟨hplace, rfl, hmid⟩ := step?_eq_some_iff.1 hstep
      obtain ⟨hway, rfl, hlast⟩ := ih.1 hrest
      refine ⟨⟨hplace, hway⟩, rfl, .inr ?_⟩
      rcases hlast with rfl | hlast
      · exact hmid
      · exact hlast
    · rintro ⟨⟨hplace, hway⟩, rfl, hlast⟩
      have hlast := hlast.resolve_left (by simp)
      refine Option.bind_eq_some_iff.2 ⟨advance place piece, ?_, ih.2 ⟨hway, rfl, .inr hlast⟩⟩
      refine step?_eq_some_iff.2 ⟨hplace, rfl, ?_⟩
      cases pieces with
      | nil => exact hlast
      | cons next pieces => simp [hway (advance place piece) (by simp [wayFrom])]

/-- A file is read at a path that passes directories only and leads to it. -/
theorem read?_eq_some_iff {p : Path} {content : ByteArray} :
    d.read? p = some content ↔ p ≠ Path.empty ∧ (∀ v ∈ d.way p, d.kind? v = some .directory) ∧
      d.kind? (d.location p) = some (.file content) := by
  have hentry : d.read? p = some content ↔ d.entry? p = some (.file content) := by
    rw [read?]
    cases d.entry? p with
    | none => simp
    | some e => cases e <;> simp
  have hfile : ∀ place, d.at? place = some (.file content) ↔ d.kind? place = some (.file content) := by
    intro place
    rw [kind?_eq_map]
    cases d.at? place with
    | none => simp
    | some e => cases e <;> simp [Entry.kind]
  rw [hentry, entry?, Option.bind_eq_some_iff, locate?, way, location]
  by_cases hp : p = Path.empty
  · simp [hp]
  · rw [if_neg hp]
    constructor
    · rintro ⟨place, hplace, hat⟩
      obtain ⟨hway, rfl, -⟩ := foldlM_step?_eq_some_iff.1 hplace
      exact ⟨hp, hway, (hfile _).1 hat⟩
    · rintro ⟨-, hway, hkind⟩
      exact ⟨_, foldlM_step?_eq_some_iff.2 ⟨hway, rfl, .inr (by simp [hkind])⟩, (hfile _).2 hkind⟩

theorem isFile_iff {p : Path} : d.isFile p = true ↔ ∃ content, d.read? p = some content := by
  rw [isFile, read?]
  cases d.entry? p with
  | none => simp
  | some e => cases e <;> simp

/-- What is found at a path is at the place that the path leads to. -/
theorem location_of_locate? {p : Path} {place : List String} (h : d.locate? p = some place) :
    d.location p = place := by
  rw [locate?] at h
  split_ifs at h
  exact (foldlM_step?_eq_some_iff.1 h).2.1.symm

/-- A directory is at the place that its path leads to. -/
theorem kind?_of_isDirectory {p : Path} (h : d.isDirectory p = true) :
    d.kind? (d.location p) = some .directory := by
  rw [isDirectory] at h
  split at h
  · next entries hentry =>
    obtain ⟨place, hplace, hat⟩ := Option.bind_eq_some_iff.1 hentry
    rw [location_of_locate? hplace, kind?_eq_map, hat]
    rfl
  · cases h

/-- Where a file is read, it is found. -/
theorem locate?_of_read? {p : Path} {content : ByteArray} (h : d.read? p = some content) :
    d.locate? p = some (d.location p) := by
  obtain ⟨hp, hway, hkind⟩ := read?_eq_some_iff.1 h
  have hthere : d.kind? (d.location p) ≠ none := by simp [hkind]
  rw [locate?, if_neg hp]
  exact foldlM_step?_eq_some_iff.2 ⟨hway, rfl, .inr hthere⟩

/-- Whether a file can be read depends on its place. -/
theorem isReadable_of_read? {p : Path} {content : ByteArray} (h : d.read? p = some content) :
    d.isReadable p = !d.unreadable.contains (d.location p) := by
  rw [isReadable, locate?_of_read? h]

theorem way_of_allPieces_eq {p : Path} {before : List String} {last : String}
    (h : p.allPieces = before ++ [last]) :
    d.way p = wayFrom (d.start p) before ++ [before.foldl advance (d.start p)] := by
  rw [way, h, wayFrom_append]
  rfl

theorem location_of_allPieces_eq {p : Path} {before : List String} {last : String}
    (h : p.allPieces = before ++ [last]) :
    d.location p = advance (before.foldl advance (d.start p)) last := by
  rw [location, h, List.foldl_append]
  rfl

/-- A new file has room at a path that ends in a name and passes directories only. -/
theorem target?_eq_some_iff {p : Path} {place : List String} :
    d.target? p = some place ↔ (∃ name, p.EndsIn name) ∧
      (∀ v ∈ d.way p, d.kind? v = some .directory) ∧ place = d.location p := by
  rw [target?]
  cases hpieces : p.allPieces.reverse with
  | nil =>
    rw [List.reverse_eq_nil_iff] at hpieces
    simp [Path.EndsIn, hpieces]
  | cons last before =>
    have hall : p.allPieces = before.reverse ++ [last] := by
      rw [← List.reverse_reverse p.allPieces, hpieces, List.reverse_cons]
    have hends : (∃ name, p.EndsIn name) ↔ Path.IsName last := by
      simp [Path.EndsIn, hall]
    rw [hends, way_of_allPieces_eq hall, location_of_allPieces_eq hall]
    dsimp only
    by_cases hname : Path.IsName last
    · rw [if_neg (by simp [hname.1, hname.2]), advance_of_isName hname]
      generalize hdir : before.reverse.foldl advance (d.start p) = dir
      constructor
      · intro h
        split at h
        · next place' hplace =>
          obtain ⟨hway, rfl, -⟩ := foldlM_step?_eq_some_iff.1 hplace
          rw [hdir] at h
          split at h
          · next hdirectory =>
            cases h
            refine ⟨hname, ?_, rfl⟩
            simpa [or_imp, forall_and] using ⟨hway, hasDirectory_iff.1 hdirectory⟩
          · cases h
        · cases h
      · rintro ⟨-, hway, rfl⟩
        rw [List.forall_mem_append, List.forall_mem_singleton] at hway
        have hplace : before.reverse.foldlM d.step? (d.start p) = some dir := by
          refine foldlM_step?_eq_some_iff.2 ⟨hway.1, hdir.symm, .inr ?_⟩
          simp [hway.2]
        rw [hplace]
        dsimp only
        rw [if_pos (hasDirectory_iff.2 hway.2)]
    · have hfault : (Path.isFiller last || decide (last = "..")) = true := by
        rw [Path.IsName, not_and_or, Bool.not_eq_false, not_not] at hname
        simpa using hname
      rw [if_pos hfault]
      simp [hname]

/-! ## Changes -/

/-- A file or an empty directory takes a place in a directory, where no directory was. -/
theorem kind?_of_place {place : List String} {e : Entry} (hne : place ≠ [])
    (hparent : d.kind? place.dropLast = some .directory) (hold : d.kind? place ≠ some .directory)
    (he : ∀ inner, e = .directory inner → inner = []) (other : List String) :
    ({ d with top := Entry.update (some e) d.top place } : Disk).kind? other
      = if other = place then some e.kind else d.kind? other :=
  Entry.kindAt?_update_some hne hparent hold he other

/-- A file leaves its place. -/
theorem kind?_of_remove {place : List String} {content : ByteArray}
    (hold : d.kind? place = some (.file content)) (other : List String) :
    ({ d with top := Entry.update none d.top place } : Disk).kind? other
      = if other = place then none else d.kind? other :=
  Entry.kindAt?_update_none_of_file hold other

/-- A directory leaves its place, with all that is below. -/
theorem kind?_of_removeTree {place : List String} (hne : place ≠ []) (other : List String) :
    ({ d with top := Entry.update none d.top place } : Disk).kind? other
      = if place <+: other then none else d.kind? other :=
  Entry.kindAt?_update_none hne other

/-! ## Outages -/

/-- An operation leaves the fates of those after it. -/
theorem fates_passed (d : Disk) : d.passed.fates = d.fates.tail := by
  unfold passed fates
  induction d.outages with
  | nil => rfl
  | cons outage rest ih =>
    cases outage with
    | unreadable names => exact ih
    | operation fate => rfl

/-- What cannot be read does not change by operations. -/
theorem unreadable_passed (d : Disk) : d.passed.unreadable = d.unreadable := by
  unfold passed unreadable
  induction d.outages with
  | nil => rfl
  | cons outage rest ih =>
    cases outage with
    | unreadable names => exact congrArg (names :: ·) ih
    | operation fate => rfl

/-! ## Directories -/

/-- Directories were made at those of the given places where nothing was, and nothing else changed. -/
structure Paved (places : List (List String)) (d d' : Disk) : Prop where
  workingDirectory : d'.workingDirectory = d.workingDirectory
  outages : d'.outages = d.outages
  kind? : ∀ place, d'.kind? place
    = if place ∈ places ∧ d.kind? place = none then some .directory else d.kind? place

/-- The places where directories are made along some pieces, from a place on. -/
def route (place : List String) (pieces : List String) : List (List String) :=
  wayFrom place pieces ++ [pieces.foldl advance place]

theorem route_cons (place : List String) (piece : String) (rest : List String) :
    route place (piece :: rest) = place :: route (advance place piece) rest := rfl

theorem mem_route_self (place : List String) (pieces : List String) : place ∈ route place pieces := by
  cases pieces <;> simp [route, wayFrom]

/-- A piece leads to a directory that is there, or it names one to be made. -/
theorem makeAlong_cons (p : Path) {place : List String} (piece : String) (rest : List String)
    (hplace : d.kind? place = some .directory) :
    (makeAlong p place (piece :: rest) d = makeAlong p (advance place piece) rest d ∧
        d.kind? (advance place piece) ≠ none) ∨
      makeAlong p place (piece :: rest) d = makeAlong p (advance place piece) rest
        { d with top := Entry.update (some (.directory [])) d.top (advance place piece) } ∧
        advance place piece = place ++ [piece] ∧ d.kind? (advance place piece) = none := by
  have hstep : makeAlong p place (piece :: rest) d =
      (if Path.isFiller piece then makeAlong p place rest
      else if piece = ".." then makeAlong p place.dropLast rest
      else if (d.at? (place ++ [piece])).isNone then
        EStateM.bind (Disk.place (place ++ [piece]) (some (.directory [])))
          fun _ => makeAlong p (place ++ [piece]) rest
      else makeAlong p (place ++ [piece]) rest) d := by
    rw [makeAlong]
    simp only [bind, EStateM.bind, get, getThe, MonadStateOf.get, EStateM.get]
    rw [hasDirectory_iff.2 hplace, Bool.not_true, if_neg Bool.false_ne_true]
  have hthere : d.kind? place ≠ none := by simp [hplace]
  rw [hstep, advance]
  split_ifs with hfiller hup hnew
  · exact .inl ⟨rfl, hthere⟩
  · exact .inl ⟨rfl, kind?_dropLast hthere⟩
  · have hnone : d.kind? (place ++ [piece]) = none := by
      rw [kind?_eq_map, Option.isNone_iff_eq_none.1 hnew, Option.map_none]
    exact .inr ⟨rfl, rfl, hnone⟩
  · refine .inl ⟨rfl, ?_⟩
    rw [kind?_eq_map, Ne, Option.map_eq_none_iff]
    simpa using hnew

/-- A new directory changes nothing but its place. -/
theorem kind?_of_newDirectory {place : List String} {piece : String}
    (hplace : d.kind? place = some .directory) (hnew : d.kind? (place ++ [piece]) = none)
    (other : List String) :
    ({ d with top := Entry.update (some (.directory [])) d.top (place ++ [piece]) } : Disk).kind? other
      = if other = place ++ [piece] then some .directory else d.kind? other := by
  refine kind?_of_place (by simp) (by simpa using hplace) (by simp [hnew]) ?_ other
  rintro _ ⟨⟩
  rfl

/-- What a piece leads to from a directory is a directory, unless it is a file. -/
theorem kind?_advance {place : List String} {piece : String}
    (hthere : d.kind? (advance place piece) ≠ none)
    (hfree : ∀ content, d.kind? (advance place piece) ≠ some (.file content)) :
    d.kind? (advance place piece) = some .directory := by
  cases hkind : d.kind? (advance place piece) with
  | none => exact absurd hkind hthere
  | some kind =>
    cases kind with
    | file content => exact absurd hkind (hfree content)
    | directory => rfl

/-- Directories are made along some pieces where no file is in the way. -/
theorem exists_makeAlong_eq_ok {p : Path} {place : List String} {pieces : List String}
    (hplace : d.kind? place = some .directory)
    (hfree : ∀ v ∈ route place pieces, ∀ content, d.kind? v ≠ some (.file content)) :
    ∃ d', makeAlong p place pieces d = .ok () d' ∧ Paved (route place pieces) d d' := by
  induction pieces generalizing place d with
  | nil =>
    refine ⟨d, ?_, rfl, rfl, ?_⟩
    · rw [makeAlong]
      simp only [bind, EStateM.bind, get, getThe, MonadStateOf.get, EStateM.get]
      rw [if_pos (hasDirectory_iff.2 hplace)]
      rfl
    · intro other
      rw [if_neg]
      rintro ⟨hmem, hnone⟩
      rw [show other = place by simpa [route, wayFrom] using hmem, hplace] at hnone
      cases hnone
  | cons piece rest ih =>
    rw [route_cons, List.forall_mem_cons] at hfree
    rcases makeAlong_cons p piece rest hplace with ⟨hstep, hthere⟩ | ⟨hstep, hadvance, hnew⟩
    · have hnext := kind?_advance hthere (hfree.2 _ (mem_route_self _ _))
      obtain ⟨d', hrun, hpaved⟩ := ih hnext hfree.2
      refine ⟨d', hstep.trans hrun, hpaved.workingDirectory, hpaved.outages, ?_⟩
      intro other
      rw [hpaved.kind? other, route_cons]
      -- the first place is a directory already
      by_cases hother : other = place
      · simp [hother, hplace]
      · simp [hother]
    · rw [hadvance] at hstep hnew hfree
      have hkind := kind?_of_newDirectory hplace hnew
      set paved : Disk :=
        { d with top := Entry.update (some (.directory [])) d.top (place ++ [piece]) }
      have hnext : paved.kind? (place ++ [piece]) = some .directory := by rw [hkind, if_pos rfl]
      have hrest : ∀ v ∈ route (place ++ [piece]) rest, ∀ content,
          paved.kind? v ≠ some (.file content) := by
        intro v hv content
        rw [hkind]
        split_ifs
        · simp
        · exact hfree.2 v hv content
      obtain ⟨d', hrun, hpaved⟩ := ih hnext hrest
      refine ⟨d', hstep.trans hrun, hpaved.workingDirectory, hpaved.outages, ?_⟩
      intro other
      rw [hpaved.kind? other, hkind, route_cons, hadvance]
      by_cases hother : other = place ++ [piece]
      · simp [hother, hnew, mem_route_self]
      · by_cases hfirst : other = place
        · simp [hfirst, hplace]
        · simp [hother, hfirst]

/-- Directories are made from a directory on. -/
theorem makeAlong_of_kind?_ne {p : Path} {place : List String} {pieces : List String}
    (hplace : d.kind? place ≠ some .directory) :
    makeAlong p place pieces d = .error (.notDirectory p) d := by
  have hnot : d.hasDirectory place = false := by
    rwa [← Bool.not_eq_true, hasDirectory_iff]
  cases pieces with
  | nil =>
    rw [makeAlong]
    simp only [bind, EStateM.bind, get, getThe, MonadStateOf.get, EStateM.get]
    rw [hnot, if_neg Bool.false_ne_true]
    rfl
  | cons piece rest =>
    rw [makeAlong]
    simp only [bind, EStateM.bind, get, getThe, MonadStateOf.get, EStateM.get]
    rw [hnot, Bool.not_false, if_pos rfl]
    rfl

/-- Where directories were made along some pieces, no file was in the way. -/
theorem free_of_makeAlong_eq_ok {p : Path} {place : List String} {pieces : List String}
    (h : makeAlong p place pieces d = .ok () d') :
    d.kind? place = some .directory ∧
      ∀ v ∈ route place pieces, ∀ content, d.kind? v ≠ some (.file content) := by
  induction pieces generalizing place d with
  | nil =>
    by_cases hplace : d.kind? place = some .directory
    · exact ⟨hplace, by simp [route, wayFrom, hplace]⟩
    · rw [makeAlong_of_kind?_ne hplace] at h
      cases h
  | cons piece rest ih =>
    by_cases hplace : d.kind? place = some .directory
    · refine ⟨hplace, ?_⟩
      rw [route_cons, List.forall_mem_cons]
      refine ⟨by simp [hplace], ?_⟩
      rcases makeAlong_cons p piece rest hplace with
        ⟨hstep, -⟩ | ⟨hstep, hadvance, hnew⟩
      · exact (ih (hstep ▸ h)).2
      · rw [hadvance] at hstep hnew ⊢
        have hkind := kind?_of_newDirectory hplace hnew
        intro v hv content hfile
        refine (ih (hstep ▸ h)).2 v hv content ?_
        rw [hkind, if_neg, hfile]
        rintro rfl
        rw [hnew] at hfile
        cases hfile
    · rw [makeAlong_of_kind?_ne hplace] at h
      cases h

/-! ## Paths of files -/

theorem foldl_advance_names {names : List String} (h : ∀ name ∈ names, Path.IsName name)
    (place : List String) : names.foldl advance place = place ++ names := by
  induction names generalizing place with
  | nil => simp
  | cons name names ih =>
    rw [List.forall_mem_cons] at h
    rw [List.foldl_cons, advance_of_isName h.1, ih h.2, List.append_assoc]
    rfl

theorem allPieces_of_normal {p : Path} (h : p.normalize = p) : p.allPieces = p.pieces := by
  obtain ⟨hanchor, -⟩ := Path.exists_names_of_normal h
  unfold Path.allPieces
  split
  · next hhere => exact absurd hhere hanchor
  · rfl

theorem wayFrom_names {names : List String} (h : ∀ name ∈ names, Path.IsName name)
    {place v : List String} (hv : v ∈ wayFrom place names) :
    ∃ below, below ≠ [] ∧ v ++ below = place ++ names := by
  induction names generalizing place with
  | nil => simp [wayFrom] at hv
  | cons name names ih =>
    rw [List.forall_mem_cons] at h
    rw [wayFrom, advance_of_isName h.1, List.mem_cons] at hv
    rcases hv with rfl | hv
    · exact ⟨name :: names, by simp, rfl⟩
    · obtain ⟨below, hne, hbelow⟩ := ih h.2 hv
      exact ⟨below, hne, by rw [hbelow, List.append_assoc]; rfl⟩

/-- A path starts at the top or at the working directory. -/
theorem kind?_start (hworking : d.kind? d.workingDirectory = some .directory) (p : Path) :
    d.kind? (d.start p) = some .directory := by
  rw [start]
  split
  · exact kind?_nil d
  · exact hworking

/-- What a path in normal form passes is above the place where it starts, or above the one it leads to:
directories, if there is something at both. -/
theorem kind?_of_mem_way_of_normal {p : Path} (hstart : d.kind? (d.start p) = some .directory)
    (hp : p.normalize = p) (hthere : d.kind? (d.location p) ≠ none) :
    ∀ v ∈ d.way p, d.kind? v = some .directory := by
  obtain ⟨-, ups, names, hups, hnames, hpieces⟩ := Path.exists_names_of_normal hp
  intro v hv
  rw [way, allPieces_of_normal hp, hpieces, wayFrom_append, List.mem_append] at hv
  rcases hv with hv | hv
  · rcases hups with rfl | rfl
    · simp [wayFrom] at hv
    · rw [wayFrom, wayFrom, List.mem_singleton] at hv
      rw [hv, hstart]
  · obtain ⟨below, hne, hbelow⟩ := wayFrom_names hnames hv
    have hlast : d.kind? (v ++ below) ≠ none := by
      rw [hbelow, ← foldl_advance_names hnames, ← List.foldl_append, ← hpieces,
        ← allPieces_of_normal hp]
      exact hthere
    exact kind?_of_append hlast hne

/-- Names and fillers lead down. -/
theorem foldl_advance_of_filterMap {pieces names : List String}
    (h : pieces.filterMap Path.componentOf? = names.map Component.name) (place : List String) :
    pieces.foldl advance place = place ++ names := by
  induction pieces generalizing place names with
  | nil =>
    obtain rfl : names = [] := List.map_eq_nil_iff.1 h.symm
    exact (List.append_nil place).symm
  | cons piece rest ih =>
    rw [List.foldl_cons]
    cases hc : Path.componentOf? piece with
    | none =>
      rw [List.filterMap_cons_none hc] at h
      rw [advance_of_isFiller (Path.componentOf?_eq_none_iff.1 hc), ih h]
    | some c =>
      rw [List.filterMap_cons_some hc] at h
      obtain ⟨name, names, rfl, hname, hrest⟩ := List.map_eq_cons_iff.1 h.symm
      obtain ⟨hfiller, ⟨-, rfl⟩ | ⟨hup, rfl⟩⟩ := Path.componentOf?_cases hc
      · cases hname
      · cases hname
        rw [advance_of_isName ⟨hfiller, hup⟩, ih hrest.symm, List.append_assoc, List.singleton_append]

/-- The paths in normal form that lead to a file. -/
def filePaths (d : Disk) : Set Path := {p | p.normalize = p ∧ d.isFile p = true}

/-- A path in normal form is known by its start, by whether a `..` is its first piece, and by the place it
leads to. -/
theorem eq_of_location_eq {p q : Path} (hp : p.normalize = p) (hq : q.normalize = q)
    (habsolute : p.isAbsolute = q.isAbsolute)
    (hup : p.pieces.head? = some ".." ↔ q.pieces.head? = some "..")
    (hlocation : d.location p = d.location q) : p = q := by
  have hhead : ∀ {ups names : List String}, (ups = [] ∨ ups = [".."]) →
      (∀ name ∈ names, Path.IsName name) → ((ups ++ names).head? = some ".." ↔ ups = [".."]) := by
    rintro ups names (rfl | rfl) hnames
    · cases names with
      | nil => simp
      | cons name names => simp [(hnames name List.mem_cons_self).2]
    · simp
  obtain ⟨hpanchor, ups, names, hups, hnames, hppieces⟩ := Path.exists_names_of_normal hp
  obtain ⟨hqanchor, ups', names', hups', hnames', hqpieces⟩ := Path.exists_names_of_normal hq
  rw [hppieces, hqpieces, hhead hups hnames, hhead hups' hnames'] at hup
  have hstart : d.start p = d.start q := by rw [start, start, habsolute]
  have hsame : ups = ups' := by
    rcases hups with rfl | rfl <;> rcases hups' with rfl | rfl <;> simp_all
  rw [location, location, allPieces_of_normal hp, allPieces_of_normal hq, hppieces, hqpieces,
    List.foldl_append, List.foldl_append, foldl_advance_names hnames, foldl_advance_names hnames',
    hstart, hsame] at hlocation
  have hpieces : p.pieces = q.pieces := by
    rw [hppieces, hqpieces, hsame, List.append_cancel_left hlocation]
  have hanchor : p.anchor = q.anchor := by
    rw [Path.isAbsolute, Path.isAbsolute] at habsolute
    cases hpa : p.anchor <;> cases hqa : q.anchor <;> simp_all
  obtain ⟨anchor, pieces⟩ := p
  obtain ⟨anchor', pieces'⟩ := q
  cases hpieces
  cases hanchor
  rfl

/-- The paths in normal form that lead to the place of a file; what they pass need not be there. -/
def fileSpellings (d : Disk) : Set Path :=
  {p | p.normalize = p ∧ ∃ content, d.kind? (d.location p) = some (.file content)}

/-- A file has at most four paths in normal form. -/
theorem finite_fileSpellings_and_ncard_le (d : Disk) :
    d.fileSpellings.Finite ∧ d.fileSpellings.ncard ≤ 4 * d.fileCount := by
  classical
  let key : Path → Bool × Bool × List String :=
    fun p => (p.isAbsolute, decide (p.pieces.head? = some ".."), d.location p)
  let keys : Finset (Bool × Bool × List String) :=
    Finset.univ ×ˢ Finset.univ ×ˢ (Entry.placesOf [] d.top).toFinset
  have hmaps : ∀ p ∈ d.fileSpellings, key p ∈ (keys : Set (Bool × Bool × List String)) := by
    rintro p ⟨-, content, hkind⟩
    have hplace : [] ++ d.location p ∈ Entry.placesOf [] d.top := Entry.mem_placesOf_of_kindAt? hkind
    simp only [keys, key, Finset.coe_product, Set.mem_prod, Finset.coe_univ, Set.mem_univ, true_and,
      List.coe_toFinset]
    exact hplace
  have hinj : Set.InjOn key d.fileSpellings := by
    rintro p ⟨hp, -⟩ q ⟨hq, -⟩ hkey
    simp only [key, Prod.mk.injEq, decide_eq_decide] at hkey
    exact eq_of_location_eq hp hq hkey.1 hkey.2.1 hkey.2.2
  have hcard : keys.card ≤ 4 * d.fileCount := by
    have hplaces : (Entry.placesOf [] d.top).toFinset.card ≤ d.fileCount := by
      refine (List.toFinset_card_le _).trans ?_
      rw [Entry.length_placesOf, fileCount]
    simp only [keys, Finset.card_product, Finset.card_univ, Fintype.card_bool]
    omega
  refine ⟨Set.Finite.of_injOn hmaps hinj keys.finite_toSet, ?_⟩
  have hle := Set.ncard_le_ncard_of_injOn key hmaps hinj keys.finite_toSet
  rw [Set.ncard_coe_finset] at hle
  exact hle.trans hcard

theorem filePaths_subset (d : Disk) : d.filePaths ⊆ d.fileSpellings := by
  rintro p ⟨hp, hfile⟩
  obtain ⟨content, hread⟩ := isFile_iff.1 hfile
  exact ⟨hp, content, (read?_eq_some_iff.1 hread).2.2⟩

theorem finite_filePaths (d : Disk) : d.filePaths.Finite :=
  d.finite_fileSpellings_and_ncard_le.1.subset d.filePaths_subset

theorem ncard_filePaths_le (d : Disk) : d.filePaths.ncard ≤ 4 * d.fileCount :=
  (Set.ncard_le_ncard d.filePaths_subset d.finite_fileSpellings_and_ncard_le.1).trans
    d.finite_fileSpellings_and_ncard_le.2

end Disk

/-- A path goes down from the top, by the given names. -/
def Path.GoesDown (p : Path) (names : List String) : Prop :=
  p.components = .root :: names.map Component.name

namespace Disk

variable {d : Disk} {p q : Path} {names : List String}

theorem filterMap_of_goesDown (h : p.GoesDown names) :
    p.allPieces.filterMap Path.componentOf? = names.map Component.name := by
  rw [Path.filterMap_allPieces]
  have hcomponents := h
  rw [Path.GoesDown, Path.components, Path.anchor_of_components h] at hcomponents
  exact List.cons.inj hcomponents |>.2

theorem start_of_goesDown (h : p.GoesDown names) : d.start p = [] := by
  rw [start, Path.isAbsolute, Path.anchor_of_components h]
  rfl

/-- Such a path leads to the place of its names. -/
theorem location_of_goesDown (h : p.GoesDown names) : d.location p = names := by
  rw [location, start_of_goesDown h, foldl_advance_of_filterMap (filterMap_of_goesDown h),
    List.nil_append]

/-- Such paths are the same if they lead to the same place. -/
theorem same_of_location_eq {names' : List String} (hp : p.GoesDown names) (hq : q.GoesDown names')
    (h : d.location p = d.location q) : p.same q = true := by
  rw [location_of_goesDown hp, location_of_goesDown hq] at h
  rw [Path.same_iff, hp, hq, h]

/-- What names and fillers pass is above the place that they lead to. -/
theorem prefix_of_mem_wayFrom {pieces names : List String}
    (h : pieces.filterMap Path.componentOf? = names.map Component.name) {place v : List String}
    (hv : v ∈ wayFrom place pieces) : v <+: place ++ names := by
  induction pieces using List.reverseRecOn generalizing names with
  | nil => cases hv
  | append_singleton before piece ih =>
    rw [List.filterMap_append] at h
    obtain ⟨front, last, rfl, hfront, -⟩ := List.append_eq_map_iff.1 h
    rw [wayFrom_append, List.mem_append] at hv
    have hplace : v <+: place ++ front := by
      rcases hv with hv | hv
      · exact ih hfront.symm hv
      · rw [wayFrom, wayFrom, List.mem_singleton, foldl_advance_of_filterMap hfront.symm] at hv
        exact hv ▸ List.prefix_rfl
    rw [← List.append_assoc]
    exact hplace.trans (List.prefix_append _ _)

/-- A path that goes down to a name is that of a file if a file is at its place. -/
theorem read?_eq_some_iff_of_goesDown (h : p.GoesDown names) {name : String} (hend : p.EndsIn name)
    {content : ByteArray} :
    d.read? p = some content ↔ d.kind? (d.location p) = some (.file content) := by
  rw [read?_eq_some_iff]
  refine ⟨fun hread => hread.2.2, fun hfile => ⟨hend.ne_empty, fun v hv => ?_, hfile⟩⟩
  obtain ⟨before, hall⟩ := List.getLast?_eq_some_iff.1 hend.1
  have hnames := filterMap_of_goesDown h
  rw [hall, List.filterMap_append] at hnames
  obtain ⟨front, last, rfl, hfront, hlast⟩ := List.append_eq_map_iff.1 hnames
  -- all places are above the one to which the pieces before the last one lead
  have habove : v <+: front := by
    rw [way, hall, start_of_goesDown h, wayFrom_append, List.mem_append] at hv
    rcases hv with hv | hv
    · exact prefix_of_mem_wayFrom hfront.symm hv
    · rw [wayFrom, wayFrom, List.mem_singleton, foldl_advance_of_filterMap hfront.symm] at hv
      exact hv ▸ List.prefix_rfl
  have hne : last ≠ [] := by
    rintro rfl
    rw [List.filterMap_cons_some (Path.componentOf?_of_name hend.2.1 hend.2.2)] at hlast
    cases hlast
  obtain ⟨rest, rfl⟩ := habove
  rw [location_of_goesDown h, List.append_assoc] at hfile
  have hthere : d.kind? (v ++ (rest ++ last)) ≠ none := by simp [hfile]
  exact kind?_of_append hthere (List.append_ne_nil_of_right_ne_nil _ hne)

end Disk

end TestScribe
