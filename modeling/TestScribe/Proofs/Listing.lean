/-
# Listing the files of a folder

The entries of a directory stand in the order of their names, and each name is a name: it can be a piece of a
path.  The operations on a disk keep it so.  Then every path that is listed below a folder is that of a file.

* `Entry.Ordered`, `Disk.IsOrdered` : entries with names, in their order;
* `Disk.ordered_createDirectories`, `Disk.ordered_removeTree`, `Emission.ordered_emit` : the operations keep
  the order;
* `Disk.isFile_of_mem_filesBelow` : what is listed are files.
-/
import TestScribe.Emission
import TestScribe.Proofs.Operations

namespace TestScribe

/-- A name that can be a piece of a path. -/
structure Path.IsPieceName (name : String) : Prop where
  isName : Path.IsName name
  plain : '/' ∉ name.toList

/-! ## Entries in order -/

namespace Entry

mutual

/-- All entries below have names, and stand in the order of these. -/
def Ordered : Entry → Prop
  | .file _ => True
  | .directory entries => OrderedAll entries

/-- Some entries have names, stand in the order of these, and so do all entries below. -/
def OrderedAll : List (String × Entry) → Prop
  | [] => True
  | (name, e) :: rest =>
    Path.IsPieceName name ∧ (∀ other ∈ rest, name < other.1) ∧ Ordered e ∧ OrderedAll rest

end

variable {entries : List (String × Entry)} {name : String} {e : Entry}

theorem mem_of_find? (h : find? name entries = some e) : (name, e) ∈ entries := by
  induction entries with
  | nil => cases h
  | cons first rest ih =>
    rw [find?] at h
    split at h
    · next heq =>
      cases h
      cases heq
      exact List.mem_cons_self
    · exact List.mem_cons_of_mem _ (ih h)

/-- Every entry of an ordered directory has a name and is in order. -/
theorem OrderedAll.of_mem (h : OrderedAll entries) {entry : String × Entry} (hentry : entry ∈ entries) :
    Path.IsPieceName entry.1 ∧ Ordered entry.2 := by
  induction entries with
  | nil => cases hentry
  | cons first rest ih =>
    obtain ⟨hname, -, hfirst, hrest⟩ := h
    rcases List.mem_cons.1 hentry with rfl | hentry
    · exact ⟨hname, hfirst⟩
    · exact ih hrest hentry

/-- An entry that was put is the only new one. -/
theorem key_of_mem_put {entry : String × Entry} (h : entry ∈ put name e entries) :
    entry.1 = name ∨ entry ∈ entries := by
  induction entries with
  | nil =>
    rw [put, List.mem_singleton] at h
    exact .inl (h ▸ rfl)
  | cons first rest ih =>
    rw [put] at h
    split at h
    · rcases List.mem_cons.1 h with rfl | h
      · exact .inl rfl
      · exact .inr (List.mem_cons_of_mem _ h)
    · split at h
      · rcases List.mem_cons.1 h with rfl | h
        · exact .inl rfl
        · exact .inr h
      · rcases List.mem_cons.1 h with rfl | h
        · exact .inr List.mem_cons_self
        · exact (ih h).imp_right (List.mem_cons_of_mem _)

/-- An entry that is in order can be put into an ordered directory. -/
theorem OrderedAll.put (h : OrderedAll entries) (hname : Path.IsPieceName name) (he : e.Ordered) :
    OrderedAll (put name e entries) := by
  induction entries with
  | nil => exact ⟨hname, by simp, he, trivial⟩
  | cons first rest ih =>
    obtain ⟨other, e'⟩ := first
    obtain ⟨hother, hbefore, he', hrest⟩ := h
    rw [Entry.put]
    split
    · next heq => exact ⟨hname, heq ▸ hbefore, he, hrest⟩
    · next hne =>
      split
      · next hlt =>
        refine ⟨hname, ?_, he, hother, hbefore, he', hrest⟩
        intro entry hentry
        rcases List.mem_cons.1 hentry with rfl | hentry
        · exact hlt
        · exact hlt.trans (hbefore entry hentry)
      · next hnot =>
        refine ⟨hother, ?_, he', ih hrest⟩
        intro entry hentry
        rcases key_of_mem_put hentry with hkey | hentry
        · rw [hkey]
          exact lt_of_le_of_ne (not_lt.1 hnot) hne
        · exact hbefore entry hentry

/-- An entry can be dropped from it. -/
theorem OrderedAll.drop (h : OrderedAll entries) (name : String) : OrderedAll (drop name entries) := by
  induction entries with
  | nil => trivial
  | cons first rest ih =>
    obtain ⟨hfirst, hbefore, he, hrest⟩ := h
    have hdrop := ih hrest
    rw [Entry.drop] at hdrop ⊢
    rw [List.filter_cons]
    split
    · exact ⟨hfirst, fun entry hentry => hbefore entry (List.mem_of_mem_filter hentry), he, hdrop⟩
    · exact hdrop

/-- Entries stay in order if one is put at a place that ends in a name, or taken away. -/
theorem OrderedAll.update (h : OrderedAll entries) {entry : Option Entry} (hentry : ∀ e ∈ entry, e.Ordered)
    {names : List String} (hlast : entry ≠ none → ∀ name ∈ names.getLast?, Path.IsPieceName name) :
    OrderedAll (update entry entries names) := by
  induction names generalizing entries with
  | nil => exact h
  | cons name more ih =>
    cases more with
    | nil =>
      cases entry with
      | none => exact h.drop name
      | some e => exact h.put (hlast nofun name rfl) (hentry e rfl)
    | cons next more =>
      rw [Entry.update]
      · split
        · next inner hfind =>
          obtain ⟨hname, hinner⟩ := h.of_mem (mem_of_find? hfind)
          refine h.put hname (ih hinner fun hne other hother => hlast hne other ?_)
          rwa [List.getLast?_cons_cons]
        · exact h
      · simp

/-- What names lead to is in order. -/
theorem OrderedAll.at? (h : OrderedAll entries) {names : List String} (hat : at? entries names = some e) :
    e.Ordered := by
  induction names generalizing entries with
  | nil =>
    cases hat
    exact h
  | cons name more ih =>
    cases more with
    | nil => exact (h.of_mem (mem_of_find? hat)).2
    | cons next more =>
      rw [Entry.at?] at hat
      · split at hat
        · next inner hfind => exact ih (h.of_mem (mem_of_find? hfind)).2 hat
        · cases hat
      · simp

/-- An entry leads by some names to a file with the given content. -/
def Leads (content : ByteArray) (names : List String) : Entry → Prop
  | .file other => names = [] ∧ other = content
  | .directory entries => kindAt? entries names = some (.file content)

mutual

/-- A path that is listed leads to a file, by names that follow the path of the entry. -/
theorem exists_leads_of_mem_files {path p : Path} :
    ∀ e : Entry, e.Ordered → p ∈ files path e → ∃ names content, (∀ name ∈ names, Path.IsPieceName name) ∧
      p = names.foldl Path.child path ∧ Leads content names e
  | .file content, _, h => by
    rw [files, List.mem_singleton] at h
    exact ⟨[], content, by simp, h, rfl, rfl⟩
  | .directory entries, hordered, h => by
    rw [files] at h
    exact exists_kindAt?_of_mem_filesOf entries hordered h

theorem exists_kindAt?_of_mem_filesOf {path p : Path} :
    ∀ entries : List (String × Entry), OrderedAll entries → p ∈ filesOf path entries →
      ∃ names content, (∀ name ∈ names, Path.IsPieceName name) ∧ p = names.foldl Path.child path ∧
        kindAt? entries names = some (.file content)
  | [], _, h => by
    rw [filesOf] at h
    cases h
  | (name, e) :: rest, ⟨hname, hbefore, he, hrest⟩, h => by
    rw [filesOf, List.mem_append] at h
    rcases h with h | h
    · obtain ⟨names, content, hnames, hp, hleads⟩ := exists_leads_of_mem_files e he h
      refine ⟨name :: names, content, List.forall_mem_cons.2 ⟨hname, hnames⟩, hp, ?_⟩
      rw [kindAt?_cons, find?, if_pos rfl]
      cases e with
      | file other =>
        obtain ⟨rfl, rfl⟩ := hleads
        rfl
      | directory inner => exact hleads
    · obtain ⟨names, content, hnames, hp, hkind⟩ := exists_kindAt?_of_mem_filesOf rest hrest h
      refine ⟨names, content, hnames, hp, ?_⟩
      cases names with
      | nil => cases hkind
      | cons first more =>
        -- the first name is that of a later entry, so it is another one
        have hne : name ≠ first := by
          rintro rfl
          rw [kindAt?_cons] at hkind
          cases hfind : find? name rest with
          | none => simp [hfind] at hkind
          | some found => exact lt_irrefl _ (hbefore _ (mem_of_find? hfind))
        rw [kindAt?_cons] at hkind ⊢
        rwa [find?, if_neg hne]

end

/-- Names go on from a directory. -/
theorem kindAt?_append {above : List String} {inner : List (String × Entry)}
    (h : Entry.at? entries above = some (.directory inner)) (names : List String) :
    kindAt? entries (above ++ names) = kindAt? inner names := by
  induction above generalizing entries with
  | nil =>
    cases h
    rfl
  | cons name more ih =>
    rw [List.cons_append, kindAt?_cons]
    cases more with
    | nil =>
      rw [show find? name entries = _ from h]
      rfl
    | cons next more =>
      rw [Entry.at?] at h
      · split at h
        · next inner' hfind =>
          rw [hfind]
          exact ih h
        · cases h
      · simp

/-- What an entry leads to is found from above. -/
theorem Leads.kindAt? {above names : List String} {content : ByteArray} (h : Leads content names e)
    (hat : Entry.at? entries above = some e) :
    Entry.kindAt? entries (above ++ names) = some (.file content) := by
  cases e with
  | file other =>
    obtain ⟨rfl, rfl⟩ := h
    rw [List.append_nil, Entry.kindAt?, hat]
    rfl
  | directory inner =>
    rw [kindAt?_append hat]
    exact h

end Entry

/-! ## Paths in a folder -/

/-- Names that follow a path in normal form are its last pieces. -/
theorem Path.foldl_child_of_normal {p : Path} (hp : p.normalize = p) (habsolute : p.isAbsolute = true)
    {names : List String} (hnames : ∀ name ∈ names, IsPieceName name) :
    names.foldl child p = ⟨.root, p.pieces ++ names⟩ ∧
      (names.foldl child p).normalize = names.foldl child p := by
  have hanchor : p.anchor = .root := of_decide_eq_true habsolute
  obtain ⟨-, done, ⟨middle, start, rfl, hmiddle, hstart⟩, hpieces⟩ := exists_isSettled_of_normal hp
  have hfold : names.foldl child p = ⟨.root, p.pieces ++ names⟩ := by
    induction names using List.reverseRecOn with
    | nil => rw [List.append_nil, ← hanchor]; rfl
    | append_singleton names name ih =>
      have hbefore := ih fun other hother => hnames other (by simp [hother])
      obtain ⟨hname, hplain⟩ := hnames name (by simp)
      obtain ⟨hne, hdot⟩ := isFiller_eq_false_iff.1 hname.1
      rw [List.foldl_append, List.foldl_cons, List.foldl_nil, hbefore, child,
        ofString_of_plain hplain hne hdot, join, if_neg (by simp [isAbsolute]), if_neg (by simp [empty]),
        if_neg (by simp [allPieces]), if_neg, List.append_assoc]
      · rfl
      -- no piece of a path in normal form is empty
      · intro hblank
        have hmem := List.mem_of_getLast? hblank
        rw [List.mem_append] at hmem
        rcases hmem with hmem | hmem
        · rw [hpieces, List.mem_reverse, List.mem_append] at hmem
          rcases hmem with hmem | hmem
          · exact absurd (hmiddle _ hmem).1 (by decide)
          · rcases hstart with rfl | rfl
            · cases hmem
            · simp at hmem
        · exact absurd (hnames "" (by simp [hmem])).isName.1 (by decide)
  refine ⟨hfold, ?_⟩
  have hsettled : IsSettled (names.reverse ++ middle ++ start) := by
    refine ⟨names.reverse ++ middle, start, rfl, ?_, hstart⟩
    intro name hname
    rcases List.mem_append.1 hname with hname | hname
    · exact (hnames name (List.mem_reverse.1 hname)).isName
    · exact hmiddle name hname
  have hreverse : (names.reverse ++ middle ++ start).reverse = p.pieces ++ names := by
    rw [hpieces, List.append_assoc, List.reverse_append, List.reverse_reverse]
  rw [hfold, ← hreverse]
  refine normalize_of_isSettled hsettled ?_
  rintro ⟨⟩

namespace Disk

variable {d d' : Disk} {p q : Path}

/-- All directories of a disk are in order. -/
def IsOrdered (d : Disk) : Prop := Entry.OrderedAll d.top

/-- An absolute path in normal form is that of a file if a file is at its place. -/
theorem read?_eq_some_iff_of_normal (hp : p.normalize = p) (habsolute : p.isAbsolute = true)
    {content : ByteArray} :
    d.read? p = some content ↔ d.kind? (d.location p) = some (.file content) := by
  rw [read?_eq_some_iff]
  refine ⟨fun h => h.2.2, fun h => ⟨?_, ?_, h⟩⟩
  · rintro rfl
    cases habsolute
  · refine kind?_of_mem_way_of_normal ?_ hp (by simp [h])
    rw [start, if_pos habsolute]
    exact kind?_nil d

/-- What is listed below an absolute path in normal form are files, by such paths. -/
theorem isFile_of_mem_filesBelow (h : d.IsOrdered) (hp : p.normalize = p) (habsolute : p.isAbsolute = true)
    (hq : q ∈ d.filesBelow p) :
    q.normalize = q ∧ q.isAbsolute = true ∧ d.isFile q = true := by
  unfold filesBelow at hq
  cases hentry : d.entry? p with
  | none => simp [hentry] at hq
  | some e =>
    rw [hentry] at hq
    rw [ entry?, Option.bind_eq_some_iff] at hentry
    obtain ⟨place, hlocate, hat⟩ := hentry
    obtain rfl := location_of_locate? hlocate
    obtain ⟨names, content, hnames, rfl, hleads⟩ :=
      Entry.exists_leads_of_mem_files e (Entry.OrderedAll.at? h hat) hq
    obtain ⟨hfold, hnormal⟩ := Path.foldl_child_of_normal hp habsolute hnames
    have habsolute' : (names.foldl Path.child p).isAbsolute = true := by rw [hfold]; rfl
    refine ⟨hnormal, habsolute', isFile_iff.2 ⟨content, ?_⟩⟩
    rw [read?_eq_some_iff_of_normal hnormal habsolute']
    have hlocation : d.location (names.foldl Path.child p) = d.location p ++ names := by
      rw [location, location, allPieces_of_normal hnormal, allPieces_of_normal hp, start, start,
        if_pos habsolute', if_pos habsolute, hfold, List.foldl_append,
        foldl_advance_names fun name hname => (hnames name hname).isName]
    rw [hlocation]
    exact hleads.kindAt? hat

/-! ## Operations -/

theorem isPieceName_of_endsIn (hplain : p.IsPlain) {name : String} (hend : p.EndsIn name) :
    Path.IsPieceName name :=
  ⟨hend.2, Path.notMem_of_mem_allPieces hplain (List.mem_of_getLast? hend.1)⟩

/-- A file or an empty directory is put at a place that ends in a name. -/
theorem IsOrdered.put (h : d.IsOrdered) {e : Entry} (he : e.Ordered) {above : List String} {name : String}
    (hname : Path.IsPieceName name) (outages : List Outage) :
    IsOrdered { d with outages, top := Entry.update (some e) d.top (above ++ [name]) } := by
  refine Entry.OrderedAll.update h ?_ ?_
  · rintro _ ⟨⟩
    exact he
  · intro _ other hother
    rw [List.getLast?_concat] at hother
    cases hother
    exact hname

theorem IsOrdered.remove (h : d.IsOrdered) (place : List String) (outages : List Outage) :
    IsOrdered { d with outages, top := Entry.update none d.top place } :=
  Entry.OrderedAll.update h (by simp) fun hne => absurd rfl hne

theorem ordered_makeAlong (p : Path) {pieces : List String}
    (hplain : ∀ piece ∈ pieces, '/' ∉ piece.toList) (place : List String) (h : d.IsOrdered) :
    Ensures (makeAlong p place pieces) d (fun _ => IsOrdered) IsOrdered := by
  induction pieces generalizing place d with
  | nil =>
    refine .bind .get ?_
    rintro _ _ ⟨rfl, rfl⟩
    split
    · exact .pure h
    · exact .throw h
  | cons piece rest ih =>
    obtain ⟨hpiece, hrest⟩ := List.forall_mem_cons.1 hplain
    by_cases hplace : d.kind? place = some .directory
    · rcases makeAlong_cons p piece rest hplace with ⟨hstep, -⟩ | ⟨hstep, hadvance, -⟩
      · exact .of_eq hstep (ih hrest (advance place piece) h)
      · -- a piece that is no name does not lead on
        have hname : Path.IsName piece := by
          rw [advance] at hadvance
          split_ifs at hadvance with hfiller hup
          · simp at hadvance
          · have hlength := congrArg List.length hadvance
            rw [List.length_dropLast, List.length_append] at hlength
            simp at hlength
          · exact ⟨by simpa using hfiller, hup⟩
        rw [hadvance] at hstep
        exact .of_eq hstep (ih hrest (place ++ [piece]) (h.put (e := .directory []) trivial ⟨hname, hpiece⟩ d.outages))
    · exact .of_eq_error (makeAlong_of_kind?_ne hplace) h

theorem ordered_createDirectories (hplain : p.IsPlain) (h : d.IsOrdered) :
    Ensures (createDirectories p) d (fun _ => IsOrdered) IsOrdered := by
  rw [createDirectories]
  refine .bind (.of_eq_ok (nextFate_eq d) (Q := fun _ => (· = d.passed))
    rfl) ?_
  rintro fate _ rfl
  cases fate with
  | some fate => exact .throw h
  | none =>
    dsimp only
    split
    · exact .pure h
    · refine .bind .get ?_
      rintro _ _ ⟨rfl, rfl⟩
      exact ordered_makeAlong p (fun _ => Path.notMem_of_mem_allPieces hplain) _ h

/-- Writing keeps a disk in order, however it ends. -/
theorem ordered_write (hplain : p.IsPlain) (content : ByteArray) (h : d.IsOrdered) :
    Ensures (write p content) d (fun _ => IsOrdered) IsOrdered := by
  cases htarget : d.target? p with
  | none => exact .of_eq_error (by rw [write_eq, htarget]) h
  | some place =>
    obtain ⟨⟨name, hend⟩, -, rfl⟩ := target?_eq_some_iff.1 htarget
    obtain ⟨above, -, hlocation⟩ := location_of_endsIn (d := d) hend
    have hput : ∀ content : ByteArray, IsOrdered { d.passed with
        top := Entry.update (some (.file content)) d.top (d.location p) } := by
      intro content
      rw [hlocation]
      exact h.put (e := .file content) trivial (isPieceName_of_endsIn hplain hend) _
    have hwrite := write_eq p content d
    rw [htarget] at hwrite
    dsimp only at hwrite
    split_ifs at hwrite
    · exact .of_eq_error hwrite h
    · cases hfate : d.fate with
      | none => exact .of_eq_ok (hfate ▸ hwrite) (hput content)
      | some fate =>
        cases fate with
        | refused => exact .of_eq_error (t := d.passed) (hfate ▸ hwrite) h
        | stopped gone => exact .of_eq_error (t := d.passed) (hfate ▸ hwrite) h
        | cutShort bytes => exact .of_eq_error (hfate ▸ hwrite) (hput (content.extract 0 bytes))

/-- So does renaming. -/
theorem ordered_rename {goal : Path} (hplain : goal.IsPlain) (h : d.IsOrdered) :
    Ensures (rename p goal) d (fun _ => IsOrdered) IsOrdered := by
  cases hread : d.read? p with
  | none => exact .of_eq_error (rename_of_read?_eq_none hread) h
  | some content =>
    have hrename : rename p goal d = _ := rename_eq hread
    cases htarget : d.target? goal with
    | none => exact .of_eq_error (by rw [hrename, htarget]) h
    | some place =>
      obtain ⟨⟨name, hend⟩, -, rfl⟩ := target?_eq_some_iff.1 htarget
      obtain ⟨above, -, hlocation⟩ := location_of_endsIn (d := d) hend
      rw [htarget] at hrename
      dsimp only at hrename
      split_ifs at hrename
      · exact .of_eq_error hrename h
      · cases hfate : d.fate with
        | some fate =>
          exact .of_eq_error (t := d.passed) (hfate ▸ hrename) h
        | none =>
          refine .of_eq_ok (hfate ▸ hrename) ?_
          rw [hlocation]
          exact (h.remove (d.location p) (Outage.passed d.outages)).put (e := .file content) trivial
            (isPieceName_of_endsIn hplain hend) _

theorem IsOrdered.clear (h : d.IsOrdered) (names : List String) :
    IsOrdered { d with top := if names = [] then [] else Entry.update none d.top names } := by
  split_ifs
  · trivial
  · exact h.remove names d.outages

/-- A removal that stops keeps the order too. -/
theorem ordered_clearAll (names : List String) (gone : List (List String)) (h : d.IsOrdered) :
    Ensures (gone.forM fun below => clear (names ++ below)) d (fun _ => IsOrdered) IsOrdered := by
  induction gone generalizing d with
  | nil => exact .pure h
  | cons below rest ih =>
    refine .bind (.of_eq_ok (a := ()) rfl (Q := fun _ => IsOrdered) (h.clear (names ++ below))) ?_
    exact fun _ _ => ih

/-- So does removing a tree. -/
theorem ordered_removeTree (h : d.IsOrdered) (p : Path) :
    Ensures (removeTree p) d (fun _ => IsOrdered) IsOrdered := by
  rw [removeTree]
  refine .bind .get ?_
  rintro _ _ ⟨rfl, rfl⟩
  split
  · exact .throw h
  · refine .bind (.of_eq_ok (nextFate_eq _) (Q := fun _ => IsOrdered) h) ?_
    intro fate d' hd'
    cases fate with
    | some fate =>
      cases fate with
      | stopped gone => exact .bind (ordered_clearAll _ gone hd') fun _ _ ht => .throw ht
      | refused => exact .throw hd'
      | cutShort bytes => exact .throw hd'
    | none =>
      refine .bind (.of_eq_ok (a := ()) rfl (Q := fun _ => IsOrdered) (hd'.clear _)) fun _ _ ht => ?_
      split
      · exact .throw ht
      · exact .pure ht

end Disk

/-- Writing a module keeps the order. -/
theorem Emission.ordered_emit {d : Disk} (h : d.IsOrdered) {directory output : Path}
    (hdirectory : directory.IsPlain) (houtput : output.IsPlain) (marker text : String) :
    Ensures (emit marker text directory output) d (fun _ => Disk.IsOrdered) Disk.IsOrdered := by
  refine .bind (Disk.ordered_createDirectories hdirectory h) fun _ d₁ h₁ => ?_
  refine .bind (Disk.ordered_write (Path.isPlain_ofString _) _ h₁) fun _ d₂ h₂ => ?_
  refine .bind (Disk.ordered_rename houtput h₂) fun _ d₃ h₃ => ?_
  refine .bind .get ?_
  rintro _ _ ⟨rfl, rfl⟩
  split
  · exact .pure h₃
  · exact Disk.ordered_write (Path.isPlain_child hdirectory marker) _ h₃

end TestScribe
