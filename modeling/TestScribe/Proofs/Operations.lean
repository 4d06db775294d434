/-
# What the operations on a disk do

An operation succeeds under conditions on what is at the places that its paths pass, and on the device; it
then changes what is at a few places.  A failed operation may leave something behind, but takes no
directory away, and no file but the one that was to be renamed.

* `Disk.Ready`, `Disk.Becomes` : the device lets operations through, and what a disk becomes by them;
* `Disk.exists_createDirectories_eq_ok`, `Disk.exists_write_eq_ok`, `Disk.exists_rename_eq_ok` : when the
  operations succeed, and with what effect;
* `Disk.Changes`, `Disk.Touches` : what an operation leaves alone, however it ends.
-/
import TestScribe.Proofs.Disk

namespace TestScribe.Disk

variable {d d' d'' : Disk}

/-! ## Successes -/

/-- The device lets the next operations through. -/
def Ready (d : Disk) (operations : Nat) : Prop := ∀ fate ∈ d.fates.take operations, fate = none

/-- A disk becomes another one by some operations: after them, the given kinds are at the places. -/
structure Becomes (d d' : Disk) (operations : Nat) (kinds : List String → Option Kind) : Prop where
  workingDirectory : d'.workingDirectory = d.workingDirectory
  fates : d'.fates = d.fates.drop operations
  unreadable : d'.unreadable = d.unreadable
  kind? : ∀ place, d'.kind? place = kinds place

/-- The device lets the next operation through if it has no failure in store. -/
theorem ready_one_iff : d.Ready 1 ↔ d.fate = none := by
  rw [Ready, fate]
  cases d.fates <;> simp

theorem nextFate_eq (d : Disk) : nextFate d = .ok d.fate d.passed := rfl

/-- The fates that are left when an operation is over. -/
theorem fates_passed_eq_drop (d : Disk) : d.passed.fates = d.fates.drop 1 := by
  rw [fates_passed, List.drop_one]

/-- Where a path starts depends on the working directory only. -/
theorem start_of_workingDirectory_eq (h : d'.workingDirectory = d.workingDirectory) (p : Path) :
    d'.start p = d.start p := by
  rw [start, start, h]

/-- So does the way that it takes. -/
theorem way_of_workingDirectory_eq (h : d'.workingDirectory = d.workingDirectory) (p : Path) :
    d'.way p = d.way p := by
  rw [way, way, start_of_workingDirectory_eq h]

/-- So does the place that it leads to. -/
theorem location_of_workingDirectory_eq (h : d'.workingDirectory = d.workingDirectory) (p : Path) :
    d'.location p = d.location p := by
  rw [location, location, start_of_workingDirectory_eq h]

/-- If the device lets the operation through, directories are made along the path. -/
theorem createDirectories_eq_of_ready (h : d.Ready 1) (p : Path) :
    createDirectories p d = if p = Path.empty then .ok () d.passed
      else makeAlong p (d.start p) p.allPieces d.passed := by
  rw [createDirectories]
  simp only [bind, EStateM.bind]
  rw [nextFate_eq, ready_one_iff.1 h]
  dsimp only
  split_ifs
  · rfl
  · rfl

/-- The device has let the operation through if directories were made. -/
theorem ready_of_createDirectories_eq_ok {p : Path} (h : createDirectories p d = .ok () d') :
    d.Ready 1 := by
  rw [ready_one_iff]
  rw [createDirectories] at h
  simp only [bind, EStateM.bind] at h
  rw [nextFate_eq] at h
  cases hfate : d.fate with
  | none => rfl
  | some fate =>
    rw [hfate] at h
    cases h

/-- Directories are made on a way that starts at a directory and has no file on it. -/
theorem exists_createDirectories_eq_ok {p : Path} (hready : d.Ready 1)
    (hstart : d.kind? (d.start p) = some .directory)
    (hfree : ∀ v ∈ route (d.start p) p.allPieces, ∀ content, d.kind? v ≠ some (.file content)) :
    ∃ d', createDirectories p d = .ok () d' ∧ Becomes d d' 1 fun place =>
      if place ∈ route (d.start p) p.allPieces ∧ d.kind? place = none then some .directory
      else d.kind? place := by
  rw [createDirectories_eq_of_ready hready]
  by_cases hp : p = Path.empty
  · refine ⟨_, if_pos hp, rfl, d.fates_passed_eq_drop, d.unreadable_passed, ?_⟩
    intro place
    rw [if_neg]
    · rfl
    · -- nothing is on the way but the start
      rintro ⟨hmem, hnone⟩
      have hplace : place = d.start p := by
        simpa [hp, route, wayFrom, Path.allPieces, Path.empty] using hmem
      rw [hplace, hstart] at hnone
      cases hnone
  · rw [if_neg hp]
    obtain ⟨d', hrun, hpaved⟩ := exists_makeAlong_eq_ok (p := p) (d := d.passed) hstart hfree
    refine ⟨d', hrun, hpaved.workingDirectory, ?_, ?_, hpaved.kind?⟩
    · rw [fates, hpaved.outages]
      exact d.fates_passed_eq_drop
    · rw [unreadable, hpaved.outages]
      exact d.unreadable_passed

/-- Where directories were made, no file was in the way. -/
theorem free_of_createDirectories_eq_ok {p : Path} (h : createDirectories p d = .ok () d')
    (hp : p ≠ Path.empty) :
    d.kind? (d.start p) = some .directory ∧
      ∀ v ∈ route (d.start p) p.allPieces, ∀ content, d.kind? v ≠ some (.file content) := by
  rw [createDirectories_eq_of_ready (ready_of_createDirectories_eq_ok h), if_neg hp] at h
  have hfree := free_of_makeAlong_eq_ok h
  exact hfree

/-- The place of a path that ends in a name is below the last place on the way. -/
theorem location_of_endsIn {p : Path} {name : String} (h : p.EndsIn name) :
    ∃ above ∈ d.way p, d.location p = above ++ [name] := by
  obtain ⟨before, hall⟩ : ∃ before, p.allPieces = before ++ [name] := by
    obtain ⟨front, hfront⟩ := List.getLast?_eq_some_iff.1 h.1
    exact ⟨front, hfront⟩
  refine ⟨before.foldl advance (d.start p), ?_, ?_⟩
  · rw [way_of_allPieces_eq hall]
    simp
  · rw [location_of_allPieces_eq hall, advance_of_isName h.2]

/-- What writing does, case by case. -/
theorem write_eq (p : Path) (content : ByteArray) (d : Disk) :
    write p content d = match d.target? p with
      | none => .error (.notFound p) d
      | some place =>
        if d.hasDirectory place then .error (.isDirectory p) d
        else match d.fate with
          | some (.cutShort bytes) => .error (.device p) { d.passed with
              top := Entry.update (some (.file (content.extract 0 bytes))) d.top place }
          | some _ => .error (.device p) d.passed
          | none => .ok () { d.passed with
              top := Entry.update (some (.file content)) d.top place } := by
  rw [write]
  simp only [bind, EStateM.bind, get, getThe, MonadStateOf.get, EStateM.get]
  cases d.target? p with
  | none => rfl
  | some place =>
    dsimp only
    by_cases hdirectory : d.hasDirectory place = true
    · simp only [EStateM.bind, EStateM.get, hdirectory, if_true]
      rfl
    · simp only [EStateM.bind, EStateM.get, hdirectory, Bool.false_eq_true, if_false, nextFate_eq]
      cases d.fate with
      | none => rfl
      | some fate => cases fate <;> rfl

/-- A file is written into a directory, where no directory has its name. -/
theorem exists_write_eq_ok {p : Path} {name : String} {content : ByteArray} (hready : d.Ready 1)
    (hend : p.EndsIn name) (hway : ∀ v ∈ d.way p, d.kind? v = some .directory)
    (hold : d.kind? (d.location p) ≠ some .directory) :
    ∃ d', write p content d = .ok () d' ∧ Becomes d d' 1 fun place =>
      if place = d.location p then some (.file content) else d.kind? place := by
  have htarget : d.target? p = some (d.location p) := target?_eq_some_iff.2 ⟨⟨name, hend⟩, hway, rfl⟩
  have hnot : d.hasDirectory (d.location p) = false := by
    rwa [← Bool.not_eq_true, hasDirectory_iff]
  obtain ⟨above, habove, hlocation⟩ := location_of_endsIn (d := d) hend
  rw [write_eq, htarget]
  dsimp only
  rw [hnot, if_neg Bool.false_ne_true, ready_one_iff.1 hready]
  refine ⟨_, rfl, rfl, d.fates_passed_eq_drop, d.unreadable_passed, ?_⟩
  intro place
  refine kind?_of_place ?_ ?_ hold (by rintro inner ⟨⟩) place
  · simp [hlocation]
  · rw [hlocation, List.dropLast_concat]
    exact hway above habove

/-- What is known of a path that was written to. -/
theorem of_write_eq_ok {p : Path} {content : ByteArray} (h : write p content d = .ok () d') :
    d.Ready 1 ∧ (∃ name, p.EndsIn name) ∧ (∀ v ∈ d.way p, d.kind? v = some .directory) ∧
      d.kind? (d.location p) ≠ some .directory := by
  rw [write_eq] at h
  cases htarget : d.target? p with
  | none =>
    rw [htarget] at h
    cases h
  | some place =>
    obtain ⟨hend, hway, rfl⟩ := target?_eq_some_iff.1 htarget
    rw [htarget] at h
    dsimp only at h
    split at h
    · cases h
    · next hnot =>
      rw [hasDirectory_iff] at hnot
      refine ⟨?_, hend, hway, hnot⟩
      rw [ready_one_iff]
      split at h
      · cases h
      · cases h
      · next hfate => exact hfate

/-- After writing there is the file, and all else is as it was. -/
theorem becomes_of_write_eq_ok {p : Path} {content : ByteArray} (h : write p content d = .ok () d') :
    Becomes d d' 1 fun place => if place = d.location p then some (.file content) else d.kind? place := by
  obtain ⟨hready, ⟨name, hend⟩, hway, hold⟩ := of_write_eq_ok h
  obtain ⟨_, hwrite, hbecomes⟩ : ∃ d'', write p content d = .ok () d'' ∧ _ :=
    exists_write_eq_ok hready hend hway hold
  cases h.symm.trans hwrite
  exact hbecomes

/-- A file that was written is read as it was written. -/
theorem read?_of_write_eq_ok {p : Path} {content : ByteArray} (h : write p content d = .ok () d') :
    d'.read? p = some content := by
  obtain ⟨-, ⟨name, hend⟩, hway, hold⟩ := of_write_eq_ok h
  obtain ⟨hworking, -, -, hkind⟩ := becomes_of_write_eq_ok h
  rw [read?_eq_some_iff, location_of_workingDirectory_eq hworking, way_of_workingDirectory_eq hworking,
    hkind, if_pos rfl]
  refine ⟨hend.ne_empty, fun v hv => ?_, rfl⟩
  rw [hkind, if_neg, hway v hv]
  rintro rfl
  exact hold (hway _ hv)

/-- What renaming does, case by case. -/
theorem rename_eq {source goal : Path} {content : ByteArray} (hread : d.read? source = some content) :
    rename source goal d = match d.target? goal with
      | none => .error (.notFound goal) d
      | some place =>
        if d.hasDirectory place then .error (.isDirectory goal) d
        else match d.fate with
          | some _ => .error (.device goal) d.passed
          | none => .ok () { d.passed with
              top := Entry.update (some (.file content))
                (Entry.update none d.top (d.location source)) place } := by
  rw [rename]
  simp only [bind, EStateM.bind, get, getThe, MonadStateOf.get, EStateM.get]
  rw [hread, locate?_of_read? hread]
  cases d.target? goal with
  | none => rfl
  | some place =>
    dsimp only
    by_cases hdirectory : d.hasDirectory place = true
    · simp only [hdirectory, if_true]
      rfl
    · simp only [EStateM.bind, hdirectory, Bool.false_eq_true, if_false, nextFate_eq]
      cases d.fate with
      | none => rfl
      | some fate => rfl

/-- Only a file can be renamed. -/
theorem rename_of_read?_eq_none {source goal : Path} (hread : d.read? source = none) :
    rename source goal d = .error (.notFound goal) d := by
  rw [rename]
  simp only [bind, EStateM.bind, get, getThe, MonadStateOf.get, EStateM.get]
  rw [hread]
  rfl

/-- A file gets another name in a directory, where no directory has that name. -/
theorem exists_rename_eq_ok {source goal : Path} {name : String} {content : ByteArray}
    (hready : d.Ready 1) (hread : d.read? source = some content) (hend : goal.EndsIn name)
    (hway : ∀ v ∈ d.way goal, d.kind? v = some .directory)
    (hold : d.kind? (d.location goal) ≠ some .directory) :
    ∃ d', rename source goal d = .ok () d' ∧ Becomes d d' 1 fun place =>
      if place = d.location goal then some (.file content)
      else if place = d.location source then none else d.kind? place := by
  have htarget : d.target? goal = some (d.location goal) :=
    target?_eq_some_iff.2 ⟨⟨name, hend⟩, hway, rfl⟩
  have hnot : d.hasDirectory (d.location goal) = false := by
    rwa [← Bool.not_eq_true, hasDirectory_iff]
  have hfile := (read?_eq_some_iff.1 hread).2.2
  obtain ⟨above, habove, hlocation⟩ := location_of_endsIn (d := d) hend
  rw [rename_eq hread, htarget]
  dsimp only
  rw [hnot, if_neg Bool.false_ne_true, ready_one_iff.1 hready]
  refine ⟨_, rfl, rfl, d.fates_passed_eq_drop, d.unreadable_passed, ?_⟩
  -- the file leaves its place, which is not the directory of the new one
  set removed : Disk := { d with top := Entry.update none d.top (d.location source) } with hremoved
  have hkind := kind?_of_remove hfile
  intro place
  rw [← hkind]
  refine kind?_of_place (d := removed) (by simp [hlocation]) ?_ ?_ (by rintro inner ⟨⟩) place
  · rw [hkind, if_neg, hlocation, List.dropLast_concat]
    · exact hway above habove
    · intro heq
      rw [← heq, hlocation, List.dropLast_concat, hway above habove] at hfile
      cases hfile
  · rw [hkind]
    split_ifs
    · simp
    · exact hold

/-- What is known of a path that something was renamed to. -/
theorem of_rename_eq_ok {source goal : Path} (h : rename source goal d = .ok () d') :
    d.Ready 1 ∧ (∃ name, goal.EndsIn name) ∧ (∀ v ∈ d.way goal, d.kind? v = some .directory) ∧
      d.kind? (d.location goal) ≠ some .directory := by
  cases hread : d.read? source with
  | none =>
    rw [rename_of_read?_eq_none hread] at h
    cases h
  | some content =>
    rw [rename_eq hread] at h
    cases htarget : d.target? goal with
    | none =>
      rw [htarget] at h
      cases h
    | some place =>
      obtain ⟨hend, hway, rfl⟩ := target?_eq_some_iff.1 htarget
      rw [htarget] at h
      dsimp only at h
      split at h
      · cases h
      · next hnot =>
        rw [hasDirectory_iff] at hnot
        refine ⟨?_, hend, hway, hnot⟩
        rw [ready_one_iff]
        split at h
        · cases h
        · next hfate => exact hfate

/-- After renaming the file is at the goal, and all else is as it was. -/
theorem becomes_of_rename_eq_ok {source goal : Path} {content : ByteArray}
    (hread : d.read? source = some content) (h : rename source goal d = .ok () d') :
    Becomes d d' 1 fun place => if place = d.location goal then some (.file content)
      else if place = d.location source then none else d.kind? place := by
  obtain ⟨hready, ⟨name, hend⟩, hway, hold⟩ := of_rename_eq_ok h
  obtain ⟨_, hrename, hbecomes⟩ := exists_rename_eq_ok hready hread hend hway hold
  cases h.symm.trans hrename
  exact hbecomes

/-! ## What is left alone -/

/-- From one disk to another, directories stay, files stay but for those at places to be removed, and
files at places that are not to be touched stay as they are and do not come into being. -/
structure Changes (touched removed : List String → Prop) (d d' : Disk) : Prop where
  workingDirectory : d'.workingDirectory = d.workingDirectory
  unreadable : d'.unreadable = d.unreadable
  directory : ∀ place, d.kind? place = some .directory → d'.kind? place = some .directory
  file : ∀ place content, d.kind? place = some (.file content) → ¬ removed place →
    ∃ content', d'.kind? place = some (.file content')
  same : ∀ place content, ¬ touched place →
    (d'.kind? place = some (.file content) ↔ d.kind? place = some (.file content))

section Changes

variable {touched removed : List String → Prop}

theorem Changes.of_kind?_eq (hworking : d'.workingDirectory = d.workingDirectory)
    (hunreadable : d'.unreadable = d.unreadable)
    (hkind : ∀ place, d'.kind? place = d.kind? place) : Changes touched removed d d' where
  workingDirectory := hworking
  unreadable := hunreadable
  directory place h := by rw [hkind, h]
  file place content h _ := ⟨content, by rw [hkind, h]⟩
  same place content _ := by rw [hkind]

theorem Changes.refl (d : Disk) : Changes touched removed d d := .of_kind?_eq rfl rfl fun _ => rfl

theorem Changes.passed (d : Disk) : Changes touched removed d d.passed :=
  .of_kind?_eq rfl d.unreadable_passed fun _ => rfl

theorem Changes.trans (h : Changes touched removed d d') (h' : Changes touched removed d' d'') :
    Changes touched removed d d'' where
  workingDirectory := h'.workingDirectory.trans h.workingDirectory
  unreadable := h'.unreadable.trans h.unreadable
  directory place hplace := h'.directory place (h.directory place hplace)
  file place content hplace hname := by
    obtain ⟨content', hplace'⟩ := h.file place content hplace hname
    exact h'.file place content' hplace' hname
  same place content hname := (h'.same place content hname).trans (h.same place content hname)

/-- A file or an empty directory is put where nothing was, or a file in place of a file that may be
touched. -/
theorem Changes.of_place {place : List String} {kind : Kind}
    (hworking : d'.workingDirectory = d.workingDirectory) (hunreadable : d'.unreadable = d.unreadable)
    (hkind : ∀ other, d'.kind? other = if other = place then some kind else d.kind? other)
    (hold : d.kind? place ≠ some .directory) (hnew : kind = .directory → d.kind? place = none)
    (hplace : kind ≠ .directory → touched place) : Changes touched removed d d' where
  workingDirectory := hworking
  unreadable := hunreadable
  directory other hother := by
    rw [hkind, if_neg, hother]
    rintro rfl
    exact hold hother
  file other content hother _ := by
    rw [hkind]
    split_ifs with heq
    · cases kind with
      | file content' => exact ⟨content', rfl⟩
      | directory =>
        rw [heq, hnew rfl] at hother
        cases hother
    · exact ⟨content, hother⟩
  same other content hother := by
    rw [hkind]
    split_ifs with heq
    · subst heq
      cases kind with
      | file content' => exact absurd (hplace (by simp)) hother
      | directory => simp [hnew rfl]
    · rfl

/-- Making directories touches no file. -/
theorem changes_makeAlong (p : Path) (place : List String) (pieces : List String) (d : Disk) :
    Ensures (makeAlong p place pieces) d (fun _ => Changes touched removed d)
      (Changes touched removed d) := by
  induction pieces generalizing place d with
  | nil =>
    refine .bind .get ?_
    rintro _ _ ⟨rfl, rfl⟩
    split
    · exact .pure (.refl _)
    · exact .throw (.refl _)
  | cons piece rest ih =>
    by_cases hplace : d.kind? place = some .directory
    · rcases makeAlong_cons p piece rest hplace with ⟨hstep, -⟩ | ⟨hstep, hadvance, hnew⟩
      · exact .of_eq hstep (ih (advance place piece) d)
      · rw [hadvance] at hstep hnew
        set paved : Disk :=
          { d with top := Entry.update (some (.directory [])) d.top (place ++ [piece]) }
        have hpaved : Changes touched removed d paved :=
          .of_place rfl rfl (kind?_of_newDirectory hplace hnew) (by simp [hnew]) (fun _ => hnew)
            (fun h => absurd rfl h)
        exact .of_eq hstep ((ih (place ++ [piece]) paved).mono (fun _ _ => hpaved.trans)
          fun _ => hpaved.trans)
    · exact .of_eq_error (makeAlong_of_kind?_ne hplace) (.refl d)

/-- Making directories touches no file, however it ends. -/
theorem changes_createDirectories (p : Path) (d : Disk) :
    Ensures (createDirectories p) d (fun _ => Changes touched removed d)
      (Changes touched removed d) := by
  have hnext : Changes touched removed d d.passed := .passed d
  rw [createDirectories]
  refine .bind (.of_eq_ok (nextFate_eq d) (Q := fun _ => (· = d.passed))
    rfl) ?_
  rintro fate _ rfl
  cases fate with
  | some fate => exact .throw hnext
  | none =>
    dsimp only
    split
    · exact .pure hnext
    · refine .bind .get ?_
      rintro _ _ ⟨rfl, rfl⟩
      exact (changes_makeAlong p _ _ _).mono (fun _ _ => hnext.trans) fun _ => hnext.trans

/-- Writing touches the place that it writes to, however it ends. -/
theorem changes_write {p : Path} {d : Disk} (hp : ∀ name, p.EndsIn name → touched (d.location p))
    (content : ByteArray) : Ensures (write p content) d (fun _ => Changes touched removed d)
      (Changes touched removed d) := by
  have hnext : Changes touched removed d d.passed := .passed d
  cases htarget : d.target? p with
  | none => exact .of_eq_error (by rw [write_eq, htarget]) (.refl d)
  | some place =>
    obtain ⟨⟨name, hend⟩, hway, rfl⟩ := target?_eq_some_iff.1 htarget
    obtain ⟨above, habove, hlocation⟩ := location_of_endsIn (d := d) hend
    by_cases hdirectory : d.hasDirectory (d.location p) = true
    · exact .of_eq_error (by rw [write_eq, htarget]; exact if_pos hdirectory) (.refl d)
    · -- all or a part of the content takes the place
      have hput : ∀ content : ByteArray, Changes touched removed d { d.passed with
          top := Entry.update (some (.file content)) d.top (d.location p) } := by
        intro content
        have hold : d.kind? (d.location p) ≠ some .directory := by rwa [Ne, ← hasDirectory_iff]
        refine .of_place rfl d.unreadable_passed
          (kind?_of_place (by simp [hlocation]) ?_ hold (by rintro inner ⟨⟩)) hold
          nofun fun _ => hp name hend
        rw [hlocation, List.dropLast_concat]
        exact hway above habove
      cases hfate : d.fate with
      | none =>
        refine .of_eq_ok (a := ()) ?_ (hput content)
        rw [write_eq, htarget]
        dsimp only
        rw [if_neg hdirectory, hfate]
      | some fate =>
        have hwrite := write_eq p content d
        rw [htarget] at hwrite
        dsimp only at hwrite
        rw [if_neg hdirectory, hfate] at hwrite
        cases fate with
        | cutShort bytes => exact .of_eq_error hwrite (hput (content.extract 0 bytes))
        | refused => exact .of_eq_error hwrite hnext
        | stopped gone => exact .of_eq_error hwrite hnext

/-- Renaming touches both places, and may remove the file at the first. -/
theorem changes_rename {source goal : Path} {d : Disk} (htouched : touched (d.location source))
    (hremoved : removed (d.location source))
    (hgoal : ∀ name, goal.EndsIn name → touched (d.location goal)) :
    Ensures (rename source goal) d (fun _ => Changes touched removed d)
      (Changes touched removed d) := by
  have hnext : Changes touched removed d d.passed := .passed d
  cases hread : d.read? source with
  | none => exact .of_eq_error (rename_of_read?_eq_none hread) (.refl d)
  | some content =>
    cases htarget : d.target? goal with
    | none => exact .of_eq_error (by rw [rename_eq hread, htarget]) (.refl d)
    | some place =>
      obtain ⟨⟨last, hend⟩, hway, rfl⟩ := target?_eq_some_iff.1 htarget
      by_cases hdirectory : d.hasDirectory (d.location goal) = true
      · exact .of_eq_error (by rw [rename_eq hread, htarget]; exact if_pos hdirectory) (.refl d)
      · by_cases hready : d.Ready 1
        · have hold : d.kind? (d.location goal) ≠ some .directory := by rwa [Ne, ← hasDirectory_iff]
          obtain ⟨d', hrun, hbecomes⟩ := exists_rename_eq_ok hready hread hend hway hold
          have hfile := (read?_eq_some_iff.1 hread).2.2
          refine .of_eq_ok hrun ⟨hbecomes.workingDirectory, hbecomes.unreadable, ?_, ?_, ?_⟩
          · intro other hother
            rw [hbecomes.kind?, if_neg, if_neg, hother]
            · rintro rfl
              rw [hfile] at hother
              cases hother
            · rintro rfl
              exact hold hother
          · intro other content' hother hnot
            rw [hbecomes.kind?]
            split_ifs with hgoal' hsource'
            · exact ⟨content, rfl⟩
            · exact absurd (hsource' ▸ hremoved) hnot
            · exact ⟨content', hother⟩
          · intro other content' hnot
            rw [hbecomes.kind?, if_neg, if_neg]
            · rintro rfl
              exact hnot htouched
            · rintro rfl
              exact hnot (hgoal last hend)
        · have hfate : ∃ fate, d.fate = some fate := by
            rwa [ready_one_iff, ← Ne, Option.ne_none_iff_exists'] at hready
          obtain ⟨fate, hfate⟩ := hfate
          refine .of_eq_error (e := .device goal) ?_ hnext
          rw [rename_eq hread, htarget]
          dsimp only
          rw [if_neg hdirectory, hfate]

end Changes

/-- The last name of a place is one of those given. -/
def Named (names : String → Prop) (place : List String) : Prop :=
  ∃ name, place.getLast? = some name ∧ names name

/-- Only files with some names are touched, and only files with some names removed. -/
abbrev Touches (touched removed : String → Prop) (d d' : Disk) : Prop :=
  Changes (Named touched) (Named removed) d d'

/-- The place of a path that ends in a name has this name. -/
theorem named_location {names : String → Prop} {p : Path} {name : String} (hend : p.EndsIn name)
    (hname : names name) : Named names (d.location p) := by
  obtain ⟨above, -, hlocation⟩ := location_of_endsIn (d := d) hend
  exact ⟨name, by simp [hlocation], hname⟩

end TestScribe.Disk
