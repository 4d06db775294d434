/-
# The files that a folder is searched for

A folder is walked depth first, each directory in the order of its names.  The walk comes to every file below the
folder once, and the paths that it lists increase in the order that compares them component by component.  That is
not the order of their written forms: `a/b.yml` comes before `a-b.yml`, although `-` comes before `/`.  A component
is compared by its bytes, and the order of bytes is that of characters.

* `Text.bytes_lt_bytes` : the order of texts is that of their bytes;
* `Disk.mem_way_join`, `Disk.location_join_of_relative` : where a path leads that is taken from another one;
* `Disk.mem_filesBelow_iff` : the walk comes to every file;
* `Disk.pairwise_filesBelow` : it comes to them in order;
* `folder_candidates_complete_and_ordered` : the candidates of a folder.
-/
import TestScribe.Source
import TestScribe.Proofs.Listing

namespace TestScribe

/-! ## The order of bytes -/

namespace Text

/-- The bytes of a text. -/
def bytes (text : String) : List UInt8 := text.toUTF8.data.toList

theorem bytes_eq (text : String) : bytes text = text.toList.flatMap String.utf8EncodeChar := by
  have h : (String.ofList text.toList).toByteArray = text.toList.utf8Encode := String.toByteArray_ofList
  rw [bytes, String.toUTF8_eq_toByteArray, ← String.ofList_toList (s := text), h, String.toList_ofList,
    List.utf8Encode, List.data_toByteArray]

/-- The bytes of a character come before those of a later one, whatever follows them.  The first byte tells how
many there are, and more of them stand for later characters; where there are as many, they are digits. -/
theorem utf8EncodeChar_append_lt {c d : Char} (h : c < d) (u v : List UInt8) :
    String.utf8EncodeChar c ++ u < String.utf8EncodeChar d ++ v := by
  have hlt : c.val.toNat < d.val.toNat := h
  have hbound : d.val.toNat < 1114112 := by
    have hvalid := d.valid
    simp only [UInt32.isValidChar, Nat.isValidChar] at hvalid
    omega
  simp only [String.utf8EncodeChar]
  generalize c.val.toNat = m at *
  generalize d.val.toNat = n at *
  -- the numbers without their last digits
  have hthird : m / 64 < n / 64 ∨ m / 64 = n / 64 := by omega
  have hsecond : m / 4096 < n / 4096 ∨ m / 4096 = n / 4096 := by omega
  have hfirst : m / 262144 < n / 262144 ∨ m / 262144 = n / 262144 := by omega
  split_ifs <;>
    simp only [List.cons_append, List.nil_append, List.cons_lt_cons_iff, UInt8.lt_iff_toNat_lt,
      ← UInt8.toNat_inj, UInt8.toNat_ofNat']
  -- four bytes on both sides are compared one by one
  on_goal -1 => rcases hfirst with hfirst | hfirst
  on_goal -1 => rcases hsecond with hsecond | hsecond
  on_goal -1 => rcases hthird with hthird | hthird
  all_goals omega

theorem bytes_lt_bytes {s t : String} (h : s < t) : bytes s < bytes t := by
  rw [bytes_eq, bytes_eq]
  rw [String.lt_iff_toList_lt] at h
  generalize s.toList = cs at *
  generalize t.toList = ds at *
  induction cs generalizing ds with
  | nil =>
    cases ds with
    | nil => exact absurd h (List.not_lt_nil _)
    | cons d ds =>
      have hne : String.utf8EncodeChar d ≠ [] := by simp
      obtain ⟨first, rest, hfirst⟩ := List.exists_cons_of_ne_nil hne
      rw [List.flatMap_cons, List.flatMap_nil, hfirst]
      exact List.nil_lt_cons _ _
  | cons c cs ih =>
    cases ds with
    | nil => exact absurd h (List.not_lt_nil _)
    | cons d ds =>
      rw [List.flatMap_cons, List.flatMap_cons]
      rcases List.cons_lt_cons_iff.1 h with hlt | ⟨rfl, hrest⟩
      · exact utf8EncodeChar_append_lt hlt _ _
      · exact List.append_left_lt (ih ds hrest)

end Text

/-- The bytes of the components of a path; paths are ordered by these. -/
def Path.byteKey (p : Path) : List (List UInt8) := p.segments.map Text.bytes

/-! ## Paths that lead on from another one -/

/-- A relative path that has pieces ends with these what it is taken from, but for a blank piece at the end. -/
theorem Path.exists_allPieces_join {p q : Path} (habsolute : q.isAbsolute = false) (hq : q.allPieces ≠ []) :
    ∃ front, (p.join q).allPieces = front ++ q.allPieces ∧
      (p.allPieces = front ∨ p.allPieces = front ++ [""]) ∧ (p.join q).isAbsolute = p.isAbsolute := by
  have happend : ∀ anchor before, allPieces ⟨anchor, before ++ q.allPieces⟩
      = allPieces ⟨anchor, before⟩ ++ q.allPieces := by
    rintro ⟨⟩ before <;> rfl
  by_cases hempty : p = empty
  · subst hempty
    refine ⟨[], ?_, .inl rfl, ?_⟩
    · rw [join, habsolute, if_neg Bool.false_ne_true, if_pos rfl, List.nil_append]
    · rw [join, habsolute, if_neg Bool.false_ne_true, if_pos rfl, habsolute]
      rfl
  rw [join, habsolute, if_neg Bool.false_ne_true, if_neg hempty, if_neg hq]
  split
  · next hblank =>
    obtain ⟨before, hbefore⟩ := List.getLast?_eq_some_iff.1 hblank
    refine ⟨allPieces ⟨p.anchor, before⟩, ?_, .inr ?_, rfl⟩
    · rw [hbefore, List.dropLast_concat, happend]
    · rw [allPieces, allPieces, hbefore]
      cases p.anchor <;> rfl
  · exact ⟨p.allPieces, happend p.anchor p.pieces, .inl rfl, rfl⟩

namespace Disk

variable {d : Disk} {p q : Path} {names : List String}

theorem location_join_of_relative (habsolute : q.isAbsolute = false) (hq : q.allPieces ≠ []) :
    d.location (p.join q) = q.allPieces.foldl advance (d.location p) := by
  obtain ⟨front, hjoin, hfront, hsame⟩ := Path.exists_allPieces_join (p := p) habsolute hq
  rw [location, location, start, start, hjoin, hsame, List.foldl_append]
  rcases hfront with hfront | hfront
  · rw [hfront]
  · rw [hfront, List.foldl_append, List.foldl_cons, List.foldl_nil, advance_of_isFiller (by decide)]

/-- Such a path passes what the other one passes, and goes on from where that one leads. -/
theorem mem_way_join (habsolute : q.isAbsolute = false) (hq : q.allPieces ≠ []) {v : List String} :
    v ∈ d.way (p.join q) ↔ v ∈ d.way p ∨ v ∈ wayFrom (d.location p) q.allPieces := by
  obtain ⟨front, hjoin, hfront, hsame⟩ := Path.exists_allPieces_join (p := p) habsolute hq
  have hstart : d.start (p.join q) = d.start p := by rw [start, start, hsame]
  rw [way, way, location, hjoin, hstart, wayFrom_append, List.mem_append]
  rcases hfront with hfront | hfront
  · rw [hfront]
  · -- the place before the blank piece is the first one from which the path goes on
    rw [hfront, List.foldl_append, List.foldl_cons, List.foldl_nil, advance_of_isFiller (by decide),
      wayFrom_append, List.mem_append, wayFrom, wayFrom, List.mem_singleton]
    obtain ⟨piece, rest, hpieces⟩ := List.exists_cons_of_ne_nil hq
    rw [hpieces, wayFrom, List.mem_cons]
    tauto

end Disk

theorem Path.ofString_of_isPieceName {name : String} (h : IsPieceName name) :
    ofString name = ⟨.none, [name]⟩ := by
  obtain ⟨hne, hdot⟩ := isFiller_eq_false_iff.1 h.isName.1
  exact ofString_of_plain h.plain hne hdot

/-- Names that follow a path are its last components. -/
theorem Path.components_foldl_child {names : List String} (h : ∀ name ∈ names, IsPieceName name) (p : Path) :
    (names.foldl child p).components = p.components ++ names.map Component.name := by
  induction names generalizing p with
  | nil => exact (List.append_nil _).symm
  | cons name names ih =>
    obtain ⟨hname, hnames⟩ := List.forall_mem_cons.1 h
    obtain ⟨hne, hdot⟩ := isFiller_eq_false_iff.1 hname.isName.1
    rw [List.foldl_cons, ih hnames, components_child hname.plain hne hdot,
      componentOf?_of_name hname.isName.1 hname.isName.2, List.append_assoc]
    rfl

theorem Path.byteKey_foldl_child {names : List String} (h : ∀ name ∈ names, IsPieceName name) (p : Path) :
    (names.foldl child p).byteKey = p.byteKey ++ names.map Text.bytes := by
  have hnames : ((names.map Component.name).map Component.text).map Text.bytes = names.map Text.bytes := by
    rw [List.map_map, List.map_map]
    rfl
  rw [byteKey, segments, components_foldl_child h, List.map_append, List.map_append, hnames]
  rfl

namespace Disk

variable {d : Disk} {p : Path} {names : List String}

theorem location_foldl_child (h : ∀ name ∈ names, Path.IsPieceName name) (p : Path) :
    d.location (names.foldl Path.child p) = d.location p ++ names := by
  induction names generalizing p with
  | nil => exact (List.append_nil _).symm
  | cons name names ih =>
    obtain ⟨hname, hnames⟩ := List.forall_mem_cons.1 h
    rw [List.foldl_cons, ih hnames, Path.child, Path.ofString_of_isPieceName hname,
      location_join_of_relative rfl (by simp [Path.allPieces]), Path.allPieces, List.foldl_cons, List.foldl_nil,
      advance_of_isName hname.isName, List.append_assoc]
    rfl

/-- Names that follow a path lead through directories, if the path does and something is where they end. -/
theorem kind?_of_mem_way_foldl_child (h : ∀ name ∈ names, Path.IsPieceName name)
    (hway : ∀ v ∈ d.way p, d.kind? v = some .directory) (hthere : d.kind? (d.location p ++ names) ≠ none) :
    ∀ v ∈ d.way (names.foldl Path.child p), d.kind? v = some .directory := by
  induction names generalizing p with
  | nil => exact hway
  | cons name names ih =>
    obtain ⟨hname, hnames⟩ := List.forall_mem_cons.1 h
    have hlocation : d.location (p.child name) = d.location p ++ [name] :=
      location_foldl_child (List.forall_mem_singleton.2 hname) p
    refine ih hnames ?_ (by rw [hlocation, List.append_assoc]; exact hthere)
    intro v hv
    rw [Path.child, Path.ofString_of_isPieceName hname, mem_way_join rfl (by simp [Path.allPieces]),
      Path.allPieces, wayFrom, wayFrom, List.mem_singleton] at hv
    rcases hv with hv | rfl
    · exact hway v hv
    · exact kind?_of_append hthere (by simp)

end Disk

/-! ## The walk -/

instance (name : String) : Decidable (Path.IsPieceName name) :=
  decidable_of_iff ((Path.isFiller name = false ∧ name ≠ "..") ∧ '/' ∉ name.toList)
    ⟨fun h => ⟨h.1, h.2⟩, fun h => ⟨h.isName, h.plain⟩⟩

namespace Entry

mutual

instance decidableOrdered : ∀ e : Entry, Decidable e.Ordered
  | .file _ => .isTrue trivial
  | .directory entries => decidableOrderedAll entries

instance decidableOrderedAll : ∀ entries : List (String × Entry), Decidable (OrderedAll entries)
  | [] => .isTrue trivial
  | (name, e) :: rest =>
    have := decidableOrdered e
    have := decidableOrderedAll rest
    inferInstanceAs (Decidable (Path.IsPieceName name ∧ (∀ other ∈ rest, name < other.1) ∧ Ordered e ∧
      OrderedAll rest))

end

mutual

/-- Every file of an entry is listed. -/
theorem mem_files_of_leads {path : Path} {names : List String} {content : ByteArray} :
    ∀ e : Entry, Leads content names e → names.foldl Path.child path ∈ files path e
  | .file other, h => by
    obtain ⟨rfl, -⟩ := h
    rw [files]
    exact List.mem_singleton_self path
  | .directory entries, h => by
    rw [files]
    exact mem_filesOf_of_kindAt? entries h

theorem mem_filesOf_of_kindAt? {path : Path} {names : List String} {content : ByteArray} :
    ∀ entries : List (String × Entry), kindAt? entries names = some (.file content) →
      names.foldl Path.child path ∈ filesOf path entries
  | [], h => by
    cases names with
    | nil => cases h
    | cons name names =>
      rw [kindAt?_cons] at h
      cases h
  | (name, e) :: rest, h => by
    cases names with
    | nil => cases h
    | cons first more =>
      rw [filesOf, List.mem_append]
      rw [kindAt?_cons, find?] at h
      by_cases hname : name = first
      · subst hname
        rw [if_pos rfl] at h
        left
        refine mem_files_of_leads e (show Leads content more e from ?_)
        cases e with
        | file other =>
          dsimp only at h
          split_ifs at h with hmore
          cases h
          exact ⟨hmore, rfl⟩
        | directory inner => exact h
      · right
        refine mem_filesOf_of_kindAt? rest (show kindAt? rest (first :: more) = some (.file content) from ?_)
        rw [if_neg hname] at h
        rwa [kindAt?_cons]

end

/-- The files of an entry stand below its path. -/
theorem exists_byteKey_of_mem_files {path p : Path} {e : Entry} (he : e.Ordered) (h : p ∈ files path e) :
    ∃ more, p.byteKey = path.byteKey ++ more := by
  obtain ⟨names, content, hnames, rfl, -⟩ := exists_leads_of_mem_files e he h
  exact ⟨names.map Text.bytes, Path.byteKey_foldl_child hnames path⟩

/-- The files of some entries stand below the path of one of them. -/
theorem exists_mem_of_mem_filesOf {path p : Path} {entries : List (String × Entry)}
    (h : p ∈ filesOf path entries) : ∃ entry ∈ entries, p ∈ files (path.child entry.1) entry.2 := by
  induction entries with
  | nil =>
    rw [filesOf] at h
    cases h
  | cons first rest ih =>
    rw [filesOf, List.mem_append] at h
    rcases h with h | h
    · exact ⟨first, List.mem_cons_self, h⟩
    · obtain ⟨entry, hentry, hp⟩ := ih h
      exact ⟨entry, List.mem_cons_of_mem first hentry, hp⟩

mutual

/-- The files of an entry are listed in the order of their components. -/
theorem pairwise_files {path : Path} :
    ∀ e : Entry, e.Ordered → (files path e).Pairwise fun p q => p.byteKey < q.byteKey
  | .file content, _ => by
    rw [files]
    exact List.pairwise_singleton _ _
  | .directory entries, h => by
    rw [files]
    exact pairwise_filesOf entries h

theorem pairwise_filesOf {path : Path} :
    ∀ entries : List (String × Entry), OrderedAll entries →
      (filesOf path entries).Pairwise fun p q => p.byteKey < q.byteKey
  | [], _ => by
    rw [filesOf]
    exact .nil
  | (name, e) :: rest, ⟨hname, hbefore, he, hrest⟩ => by
    rw [filesOf, List.pairwise_append]
    refine ⟨pairwise_files e he, pairwise_filesOf rest hrest, ?_⟩
    intro p hp q hq
    obtain ⟨entry, hentry, hq⟩ := exists_mem_of_mem_filesOf hq
    obtain ⟨hother, hinner⟩ := hrest.of_mem hentry
    obtain ⟨more, hp⟩ := exists_byteKey_of_mem_files he hp
    obtain ⟨more', hq⟩ := exists_byteKey_of_mem_files hinner hq
    have hkey := Path.byteKey_foldl_child (List.forall_mem_singleton.2 hname) path
    have hkey' := Path.byteKey_foldl_child (List.forall_mem_singleton.2 hother) path
    rw [List.foldl_cons, List.foldl_nil] at hkey hkey'
    -- both go through the directory, and part at the names of their entries
    rw [hp, hq, hkey, hkey', List.append_assoc, List.append_assoc]
    refine List.append_left_lt (List.cons_lt_cons_iff.2 (.inl ?_))
    exact Text.bytes_lt_bytes (hbefore entry hentry)

end

end Entry

namespace Disk

variable {d : Disk} {folder p : Path}

instance (d : Disk) : Decidable d.IsOrdered := inferInstanceAs (Decidable (Entry.OrderedAll d.top))

/-- A path that is listed is that of the folder with names that follow, which lead to a file. -/
theorem exists_names_of_mem_filesBelow (h : d.IsOrdered) (hp : p ∈ d.filesBelow folder) :
    d.locate? folder = some (d.location folder) ∧
      ∃ names content, (∀ name ∈ names, Path.IsPieceName name) ∧ p = names.foldl Path.child folder ∧
        d.kind? (d.location folder ++ names) = some (.file content) := by
  unfold filesBelow at hp
  cases hentry : d.entry? folder with
  | none => simp [hentry] at hp
  | some e =>
    rw [hentry] at hp
    rw [ entry?, Option.bind_eq_some_iff] at hentry
    obtain ⟨place, hlocate, hat⟩ := hentry
    obtain rfl := location_of_locate? hlocate
    obtain ⟨names, content, hnames, hpath, hleads⟩ :=
      Entry.exists_leads_of_mem_files e (Entry.OrderedAll.at? h hat) hp
    exact ⟨hlocate, names, content, hnames, hpath, hleads.kindAt? hat⟩

/-- Every file at or below the place of a folder is listed. -/
theorem mem_filesBelow_of_kind? (hexists : d.exists? folder = true) {names : List String} {content : ByteArray}
    (hkind : d.kind? (d.location folder ++ names) = some (.file content)) :
    names.foldl Path.child folder ∈ d.filesBelow folder := by
  obtain ⟨e, hentry⟩ := Option.isSome_iff_exists.1 hexists
  rw [filesBelow, hentry]
  refine Entry.mem_files_of_leads e (show Entry.Leads content names e from ?_)
  rw [ entry?, Option.bind_eq_some_iff] at hentry
  obtain ⟨place, hlocate, hat⟩ := hentry
  obtain rfl := location_of_locate? hlocate
  cases e with
  | file other =>
    have hfile : d.kind? (d.location folder) = some (.file other) := by
      rw [kind?_eq_map, hat]
      rfl
    by_cases hnames : names = []
    · subst hnames
      rw [List.append_nil, hfile] at hkind
      cases hkind
      exact ⟨rfl, rfl⟩
    · -- nothing is below a file
      rw [kind?_of_append (by simp [hkind]) hnames] at hfile
      cases hfile
  | directory inner =>
    rw [kind?, Entry.kindAt?_append hat] at hkind
    exact hkind

/-- The walk comes to every file at or below the place of a folder, by the path of the folder and the names that
follow. -/
theorem mem_filesBelow_iff (h : d.IsOrdered) :
    p ∈ d.filesBelow folder ↔ d.exists? folder = true ∧
      ∃ names, p = names.foldl Path.child folder ∧
        ∃ content, d.kind? (d.location folder ++ names) = some (.file content) := by
  constructor
  · intro hp
    obtain ⟨-, names, content, -, hpath, hkind⟩ := exists_names_of_mem_filesBelow h hp
    refine ⟨?_, names, hpath, content, hkind⟩
    rw [exists?]
    cases hentry : d.entry? folder with
    | none => simp [filesBelow, hentry] at hp
    | some e => rfl
  · rintro ⟨hexists, names, rfl, content, hkind⟩
    exact mem_filesBelow_of_kind? hexists hkind

theorem pairwise_filesBelow (h : d.IsOrdered) (folder : Path) :
    (d.filesBelow folder).Pairwise fun p q => p.byteKey < q.byteKey := by
  unfold filesBelow
  cases hentry : d.entry? folder with
  | none => exact .nil
  | some e =>
    rw [ entry?, Option.bind_eq_some_iff] at hentry
    obtain ⟨place, -, hat⟩ := hentry
    exact Entry.pairwise_files e (Entry.OrderedAll.at? h hat)

/-- Every path that is listed is that of a file. -/
theorem isFile_of_mem_walk (h : d.IsOrdered) (hp : p ∈ d.filesBelow folder) : d.isFile p = true := by
  obtain ⟨hlocate, names, content, hnames, rfl, hkind⟩ := exists_names_of_mem_filesBelow h hp
  rw [locate?] at hlocate
  split_ifs at hlocate with hfolder
  obtain ⟨hway, -, -⟩ := foldlM_step?_eq_some_iff.1 hlocate
  refine isFile_iff.2 ⟨content, read?_eq_some_iff.2 ⟨?_, ?_, ?_⟩⟩
  · intro hempty
    have hcomponents := Path.components_foldl_child hnames folder
    rw [hempty] at hcomponents
    obtain ⟨-, hnil⟩ := List.append_eq_nil_iff.1 hcomponents.symm
    obtain rfl := List.map_eq_nil_iff.1 hnil
    exact hfolder hempty
  · exact kind?_of_mem_way_foldl_child hnames hway (by simp [hkind])
  · rw [location_foldl_child hnames, hkind]

end Disk

/-! ## Candidates -/

namespace Source

/-- The lower-case form of the file name ends in that of the suffix, or in the ending of a document name. -/
def HasEnding (suffix : String) (p : Path) : Prop :=
  ∃ name, p.fileName? = some name ∧ ∃ ending ∈ [".yml", ".yaml", ".json", Text.lower suffix],
    ending.toList <:+ (Text.lower name).toList

theorem isCandidate_iff {suffix : String} {p : Path} : isCandidate suffix p = true ↔ HasEnding suffix p := by
  have hmem : ∀ ending, ending ∈ Text.lower suffix :: endings ↔ ending ∈ endings ++ [Text.lower suffix] :=
    fun _ => (List.perm_append_singleton _ _).symm.mem_iff
  rw [isCandidate, HasEnding]
  change _ ↔ ∃ name, _ ∧ ∃ ending ∈ endings ++ [Text.lower suffix], _
  cases p.fileName? with
  | none => simp
  | some name => simp only [List.any_eq_true, Text.endsIn, List.isSuffixOf_iff_suffix, hmem, Option.some.injEq,
      exists_eq_left']

end Source

/-- **What a folder is searched for.**  The candidates of a folder are the files at or below its place whose names
have one of the endings in lower case, whatever the depth.  Each is listed once, by a path under which it can be
read, and the paths strictly increase in the order of their components' bytes. -/
theorem folder_candidates_complete_and_ordered (d : Disk) (hordered : d.IsOrdered) (suffix : String)
    (folder : Path) :
    (∀ p, p ∈ Source.inFolder d suffix folder ↔ d.exists? folder = true ∧
      (∃ names, p = names.foldl Path.child folder ∧
        ∃ content, d.kind? (d.location folder ++ names) = some (.file content)) ∧
      Source.HasEnding suffix p) ∧
    (∀ p ∈ Source.inFolder d suffix folder, d.isFile p = true) ∧
    (Source.inFolder d suffix folder).Nodup ∧
    (Source.inFolder d suffix folder).Pairwise fun p q => p.byteKey < q.byteKey := by
  have hpairwise : (Source.inFolder d suffix folder).Pairwise fun p q => p.byteKey < q.byteKey :=
    (Disk.pairwise_filesBelow hordered folder).filter _
  refine ⟨?_, ?_, ?_, hpairwise⟩
  · intro p
    rw [Source.inFolder, List.mem_filter, Disk.mem_filesBelow_iff hordered, Source.isCandidate_iff, and_assoc]
  · intro p hp
    exact Disk.isFile_of_mem_walk hordered (List.mem_of_mem_filter hp)
  · refine List.Pairwise.imp (fun {p q} hlt => ?_) hpairwise
    rintro rfl
    exact List.lt_irrefl _ hlt

/-- A folder with a directory next to a file whose name goes on with a `-`, with capitals in an ending, with names
beyond ASCII, and with a file that is no candidate. -/
def deepFolder : Disk :=
  ⟨[("p", .directory [("A.YML", .file "".toUTF8),
    ("a", .directory [("b", .directory [("c_test.py", .file "".toUTF8)]), ("b.yml", .file "".toUTF8)]),
    ("a-b.yml", .file "".toUTF8), ("notes.txt", .file "".toUTF8), ("é.json", .file "".toUTF8),
    ("😀.json", .file "".toUTF8)])], [], []⟩

/-- The directory is listed before the file, although `-` comes before `/`. -/
theorem folder_candidates_complete_and_ordered_mixed :
    deepFolder.IsOrdered ∧
    Source.inFolder deepFolder "_Test.py" ⟨.root, ["p"]⟩
      = [⟨.root, ["p", "A.YML"]⟩, ⟨.root, ["p", "a", "b", "c_test.py"]⟩, ⟨.root, ["p", "a", "b.yml"]⟩,
        ⟨.root, ["p", "a-b.yml"]⟩, ⟨.root, ["p", "é.json"]⟩, ⟨.root, ["p", "😀.json"]⟩] ∧
    (Source.inFolder deepFolder "_Test.py" ⟨.root, ["p"]⟩).Pairwise (fun p q => p.byteKey < q.byteKey) ∧
    ¬ Source.HasEnding "_Test.py" ⟨.root, ["p", "notes.txt"]⟩ := by
  have hordered : deepFolder.IsOrdered := by decide +kernel
  obtain ⟨hmem, -, -, hpairwise⟩ :=
    folder_candidates_complete_and_ordered deepFolder hordered "_Test.py" ⟨.root, ["p"]⟩
  have hlist : Source.inFolder deepFolder "_Test.py" ⟨.root, ["p"]⟩
      = [⟨.root, ["p", "A.YML"]⟩, ⟨.root, ["p", "a", "b", "c_test.py"]⟩, ⟨.root, ["p", "a", "b.yml"]⟩,
        ⟨.root, ["p", "a-b.yml"]⟩, ⟨.root, ["p", "é.json"]⟩, ⟨.root, ["p", "😀.json"]⟩] := by
    decide +kernel
  refine ⟨hordered, hlist, hpairwise, fun hending => ?_⟩
  have hnotes := (hmem ⟨.root, ["p", "notes.txt"]⟩).2
    ⟨by decide +kernel, ⟨["notes.txt"], by decide +kernel, "".toUTF8, by decide +kernel⟩, hending⟩
  rw [hlist] at hnotes
  exact absurd hnotes (by decide +kernel)

end TestScribe
