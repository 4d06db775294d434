/-
# What the steps of making do

What the steps of `Make` that change the session do to it: claiming a class adds to the classes, and writing
a module changes the disk, where the path of the module must end in a name for the writing to succeed.  What was
kept of a module is found at its path.

* `referenced`, `Naming.placedIn` : the path that a reference names, and where a module goes, under a fixed root;
* `Session.made?_keep`, `Session.Has` : what a session keeps of modules;
* `Make.ensures_claimClass`, `Make.ensures_emit` : the steps that change the session.
-/
import TestScribe.Making
import TestScribe.Proofs.Naming

namespace TestScribe

/-- The path that a reference names, below a fixed root. -/
def referenced (root : Path) (raw : String) : Path :=
  (if (referencePath raw).isAbsolute then referencePath raw
    else root.join (referencePath raw)).normalize

theorem isPlain_referenced {root : Path} (hroot : root.IsPlain) (raw : String) :
    (referenced root raw).IsPlain := by
  have hraw : (referencePath raw).IsPlain := by
    unfold referencePath
    exact Path.isPlain_ofString _
  apply Path.isPlain_normalize
  split
  · exact hraw
  · exact Path.isPlain_join hroot hraw

theorem normalize_referenced (root : Path) (raw : String) :
    (referenced root raw).normalize = referenced root raw :=
  Path.normalize_normalize _

/-- Where the module of a source goes below a fixed root, and its class. -/
def Naming.placedIn (root : Path) (suffix : String) (source : Path) (outputDirectory : Option Path) :
    Except PathFault (Path × String) :=
  (placed root suffix source).map fun (output, className) =>
    match outputDirectory, output.fileName? with
    | some directory, some name => (directory.child name, className)
    | _, _ => (output, className)

theorem Naming.placedIn_none (root : Path) (suffix : String) (source : Path) :
    placedIn root suffix source none = placed root suffix source := by
  rw [placedIn]
  cases placed root suffix source <;> rfl

section PlacedIn

variable {root source p : Path} {suffix className name : String}
  (hplaced : Naming.placed root suffix source = .ok (p, className)) (directory : Path)
include hplaced

/-- A module goes below another directory under its own file name. -/
theorem Naming.placedIn_of_fileName (hname : p.fileName? = some name) :
    placedIn root suffix source (some directory) = .ok (directory.child name, className) := by
  rw [placedIn, hplaced, Except.map]
  simp only [hname]

theorem Naming.placedIn_of_no_fileName (hname : p.fileName? = none) :
    placedIn root suffix source (some directory) = .ok (p, className) := by
  rw [placedIn, hplaced, Except.map]
  simp only [hname]

end PlacedIn

/-- The source of a testcase is the one it was read with. -/
theorem Testcase.source_of_ofDocument {document : Mapping} {source : Path} {t : Testcase}
    (h : Testcase.ofDocument document source = .ok t) : t.config.source = source := by
  have hconfig : ∀ {m : Mapping} {config : Config}, Config.ofMapping m source = .ok config →
      config.source = source := by
    intro m config h
    simp only [Config.ofMapping, bind_eq_ok] at h
    -- Eight fields are read, none of which is the source.
    obtain ⟨_, -, _, -, _, -, _, -, _, -, _, -, _, -, _, -, h⟩ := h
    cases h
    rfl
  rw [Testcase.ofDocument] at h
  split at h
  · obtain ⟨config, hc, h⟩ := bind_eq_ok.1 h
    split at h
    · obtain ⟨steps, -, h⟩ := bind_eq_ok.1 h
      cases h
      exact hconfig hc
    · simp at h
  · simp at h

namespace Make

variable {α ε : Type}

theorem ensures_ofExcept {fault : ε → Fault} {x : Except ε α} {s : Session} :
    Ensures (ofExcept fault x) s (fun a t => t = s ∧ x = .ok a) (· = s) := by
  cases x with
  | ok a => exact .pure ⟨rfl, rfl⟩
  | error e => exact .throw rfl

/-! ## Looking things up -/

section Fixed

variable {root : Path} {s : Session} (hroot : s.locator = .fixed root)

include hroot

theorem findRoot_eq (p : Path) : findRoot p s = .ok root s := by
  obtain ⟨settings, locator, disk, roots, made, classes, runSet, resolving⟩ := s
  cases hroot
  rfl

end Fixed

/-- The import lines of a module, and its class. -/
theorem script_fields {settings : Settings} {testcase : Testcase} {className : String}
    {imports : List Import} {below : Path} {script : Script}
    (h : Make.script settings testcase className imports below = .ok script) :
    script.imports = importLines below.components.length imports ∧
      script.className = "TestCase" ++ className := by
  obtain ⟨steps, -, h⟩ := bind_eq_ok.1 h
  cases h
  exact ⟨rfl, rfl⟩

end Make

/-! ## Changing the session -/

/-- A module that is found was made at the same path. -/
theorem Session.exists_mem_of_made? {s : Session} {p : Path} {made : Made} (h : s.made? p = some made) :
    ∃ output, (output, made) ∈ s.made ∧ output.same p = true := by
  rw [Session.made?, Option.map_eq_some_iff] at h
  obtain ⟨⟨output, _⟩, hfind, rfl⟩ := h
  have hsame := List.find?_some hfind
  exact ⟨output, List.mem_of_find?_eq_some hfind, hsame⟩

theorem Session.made?_eq_none_iff {s : Session} {p : Path} :
    s.made? p = none ↔ ∀ entry ∈ s.made, ¬ entry.1.same p := by
  rw [made?, Option.map_eq_none_iff, List.find?_eq_none]

/-- What was made stays as it is when modules are added. -/
theorem Session.made?_of_prefix {s t : Session} (h : s.made <+: t.made) {p : Path} {made : Made}
    (hmade : s.made? p = some made) : t.made? p = some made := by
  obtain ⟨new, hnew⟩ := h
  rw [Session.made?, Option.map_eq_some_iff] at hmade ⊢
  obtain ⟨entry, hfind, hentry⟩ := hmade
  refine ⟨entry, ?_, hentry⟩
  rw [← hnew, List.find?_append, hfind, Option.some_or]

section Keep

variable {entries before after : List (Path × Made)} {output : Path} {made : Made}

/-- What was made at other paths is passed over. -/
theorem Made.put_append (h : ∀ entry ∈ before, ¬ entry.1.same output) :
    made.put output (before ++ after) = before ++ made.put output after := by
  induction before with
  | nil => rfl
  | cons entry before ih =>
    rw [List.cons_append, put, if_neg (h entry List.mem_cons_self),
      ih fun other hother => h other (List.mem_cons_of_mem _ hother), List.cons_append]

theorem Made.mem_put {entry : Path × Made} (h : entry ∈ made.put output entries) :
    entry ∈ entries ∨ entry.1.same output ∧ entry.2 = made := by
  induction entries with
  | nil =>
    rw [List.mem_singleton.1 h]
    exact .inr ⟨Path.same_iff.2 rfl, rfl⟩
  | cons first rest ih =>
    rw [put] at h
    split at h
    · next hsame =>
      rcases List.mem_cons.1 h with rfl | h
      · exact .inr ⟨hsame, rfl⟩
      · exact .inl (List.mem_cons_of_mem _ h)
    · rcases List.mem_cons.1 h with rfl | h
      · exact .inl List.mem_cons_self
      · exact (ih h).imp_left (List.mem_cons_of_mem _)

theorem Made.exists_mem_put {entry : Path × Made} (h : entry ∈ entries) :
    ∃ made', (entry.1, made') ∈ made.put output entries := by
  induction entries with
  | nil => cases h
  | cons first rest ih =>
    rw [put]
    split
    · rcases List.mem_cons.1 h with rfl | h
      · exact ⟨made, List.mem_cons_self⟩
      · exact ⟨entry.2, List.mem_cons_of_mem _ h⟩
    · rcases List.mem_cons.1 h with rfl | h
      · exact ⟨entry.2, List.mem_cons_self⟩
      · obtain ⟨made', hmem⟩ := ih h
        exact ⟨made', List.mem_cons_of_mem _ hmem⟩

theorem Made.find?_put (made : Made) (output : Path) (entries : List (Path × Made)) :
    ((made.put output entries).find? fun entry => entry.1.same output).map Prod.snd = some made := by
  induction entries with
  | nil => simp [put, Path.same]
  | cons first rest ih =>
    rw [put]
    split
    · next hsame => simp [hsame]
    · next hother => simpa [hother] using ih

/-- A module that is kept is found. -/
theorem Session.made?_keep (s : Session) (output : Path) (made : Made) :
    (s.keep output made).made? output = some made := made.find?_put output s.made

/-- There is a module of a source at a path. -/
def Session.Has (s : Session) (source output : Path) : Prop :=
  ∃ made, s.made? output = some made ∧ made.source.same source

theorem Session.made?_eq_none_of_keep {s : Session} {p : Path}
    (h : (s.keep output made).made? p = none) : s.made? p = none := by
  rw [made?_eq_none_iff] at h ⊢
  intro entry hentry
  obtain ⟨made', hmem⟩ := Made.exists_mem_put hentry
  exact h (entry.1, made') hmem

/-- Where nothing was made, a module comes after all others. -/
theorem Session.made_keep {s : Session} (h : s.made? output = none) :
    (s.keep output made).made = s.made ++ [(output, made)] := by
  have hput : made.put output (s.made ++ []) = s.made ++ [(output, made)] :=
    Made.put_append (made?_eq_none_iff.1 h)
  rwa [List.append_nil] at hput

/-- What was made before is in its place, if a module is kept where nothing was made then. -/
theorem Session.prefix_made_keep {s t : Session} (h : s.made? output = none) (hst : s.made <+: t.made) :
    s.made <+: (t.keep output made).made := by
  obtain ⟨new, hnew⟩ := hst
  show s.made <+: made.put output t.made
  rw [← hnew, Made.put_append (made?_eq_none_iff.1 h)]
  exact List.prefix_append _ _

end Keep

/-- A class that is claimed stays claimed by the same source. -/
theorem Session.claim?_of_append {s t : Session} {more : List ClassClaim}
    (h : t.classes = s.classes ++ more) {directory : Path} {className : String} {c : ClassClaim}
    (hc : s.claim? directory className = some c) : t.claim? directory className = some c := by
  rw [Session.claim?] at hc ⊢
  rw [h, List.find?_append, hc]
  rfl

/-- A class is claimed only where no other source has claimed it, and is then claimed. -/
theorem Make.ensures_claimClass (output : Path) (className : String) (source : Path) (s : Session) :
    Ensures (claimClass output className source) s
      (fun _ t => (∃ more, t = { s with classes := s.classes ++ more }) ∧
        (∃ c, t.claim? output.parent className = some c ∧ c.source.same source) ∧
        ∀ c, s.claim? output.parent className = some c → c.source.same source) (· = s) := by
  refine .bind .get ?_
  rintro s _ ⟨rfl, rfl⟩
  cases hclaim : s.claim? output.parent className with
  | some c =>
    dsimp only
    split
    · next hsame =>
      refine .pure ⟨⟨[], by simp⟩, ⟨c, hclaim, hsame⟩, ?_⟩
      rintro _ ⟨⟩
      exact hsame
    · exact .throw rfl
  | none =>
    refine .of_eq_ok rfl ⟨⟨[⟨output.parent, className, source⟩], rfl⟩, ?_, nofun⟩
    refine ⟨⟨output.parent, className, source⟩, ?_, by simp [Path.same]⟩
    rw [Session.claim?] at hclaim ⊢
    rw [List.find?_append, hclaim]
    simp [Path.same]

/-- A new file must have a name. -/
theorem Disk.endsIn_of_target? {d : Disk} {p : Path} {names : List String}
    (h : d.target? p = some names) : ∃ name, p.EndsIn name := by
  rw [target?] at h
  cases hpieces : p.allPieces.reverse with
  | nil => simp [hpieces] at h
  | cons last before =>
    rw [hpieces] at h
    dsimp only at h
    split at h
    · simp at h
    · next hname =>
      rw [Bool.or_eq_true, decide_eq_true_eq, not_or] at hname
      refine ⟨last, ?_, by simpa using hname.1, hname.2⟩
      rw [List.getLast?_eq_head?_reverse, hpieces, List.head?_cons]

theorem Disk.ensures_rename (source goal : Path) (d : Disk) :
    Ensures (rename source goal) d (fun _ _ => ∃ name, goal.EndsIn name) fun _ => True := by
  refine .bind .get ?_
  rintro d _ ⟨rfl, rfl⟩
  cases htarget : d.target? goal with
  | some names =>
    exact .of_forall (fun _ _ => endsIn_of_target? htarget) fun _ => trivial
  | none => cases d.read? source <;> cases d.locate? source <;> exact .throw trivial

/-- A module is written only to a path that ends in a name. -/
theorem Emission.ensures_emit (marker text : String) (directory output : Path) (d : Disk) :
    Ensures (emit marker text directory output) d (fun _ _ => ∃ name, output.EndsIn name)
      fun _ => True := by
  refine .bind (.of_forall (fun _ _ => trivial) fun _ => trivial) fun _ _ _ => ?_
  refine .bind (.of_forall (fun _ _ => trivial) fun _ => trivial) fun _ _ _ => ?_
  refine .bind (Disk.ensures_rename _ output _) fun _ _ hend => ?_
  exact .of_forall (fun _ _ => hend) fun _ => trivial

/-- An operation on the disk changes nothing else of the session. -/
theorem Make.ensures_onDisk {α : Type} {operation : Disk.Operation α} {s : Session}
    {Q : α → Disk → Prop} {E : Disk → Prop} (h : Ensures operation s.disk Q E) :
    Ensures (onDisk operation) s (fun a t => ∃ d, t = { s with disk := d } ∧ Q a d)
      fun t => ∃ d, t = { s with disk := d } ∧ E d := by
  cases hrun : operation s.disk with
  | ok a d =>
    refine .of_eq_ok (a := a) (t := { s with disk := d }) ?_ ⟨d, rfl, h.ok hrun⟩
    rw [onDisk, hrun]
  | error e d =>
    refine .of_eq_error (e := .disk e) (t := { s with disk := d }) ?_ ⟨d, rfl, h.error hrun⟩
    rw [onDisk, hrun]

/-- Writing a module does to the disk what it does there, and changes nothing else. -/
theorem Make.ensures_emit_of {text : String} {output : Path} {s : Session} {Q E : Disk → Prop}
    (hnone : E s.disk) (h : Ensures (Emission.emit s.settings.packageMarker text output.parent output)
      s.disk (fun _ => Q) E) :
    Ensures (emit text output) s (fun _ t => ∃ d, t = { s with disk := d } ∧ Q d)
      fun t => ∃ d, t = { s with disk := d } ∧ E d := by
  rw [emit]
  split
  · exact .throw ⟨s.disk, rfl, hnone⟩
  · next directory hparent =>
    obtain rfl : output.parent = directory := by rw [Path.parent, hparent, Option.getD_some]
    refine .bind .get ?_
    intro u t hget
    obtain ⟨rfl, rfl⟩ : s = t ∧ s = u := ⟨hget.1.symm, hget.2.symm⟩
    exact ensures_onDisk h

/-- Writing a module changes nothing but the disk. -/
theorem Make.ensures_emit (text : String) (output : Path) (s : Session) :
    Ensures (emit text output) s
      (fun _ t => (∃ d, t = { s with disk := d }) ∧ ∃ name, output.EndsIn name)
      fun t => ∃ d, t = { s with disk := d } := by
  have hdisk := Emission.ensures_emit s.settings.packageMarker text output.parent output s.disk
  refine (ensures_emit_of trivial (hdisk.mono (fun _ _ h => h) fun _ _ => trivial)).mono ?_ ?_
  · rintro _ _ ⟨d, rfl, hend⟩
    exact ⟨⟨d, rfl⟩, hend⟩
  · rintro _ ⟨d, rfl, -⟩
    exact ⟨d, rfl⟩

end TestScribe
