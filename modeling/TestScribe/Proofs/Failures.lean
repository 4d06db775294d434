/-
# What a run that fails leaves

A run that fails has gone on up to some session, and has stopped there in one step.  Up to that session it has
made the modules of documents that are called on the way, each of them completely.  The step in which it stopped
made no module; it may be the writing of one whose class was claimed just before.

* `Emission.read?_of_emit_eq_ok` : a module that was written is read as it was written;
* `CallsIn`, `WrittenIn` : the calls of documents in the course of a run, and the modules written in it;
* `Proceeds`, `Stops`, `Fails` : what a run does up to a session, and how it stops there;
* `Observed.proceeds_testcaseWithin` : every run proceeds, or fails in this way;
* `failed_run_leaves_nothing_half_done` : the stack, the files to run and the modules after a failure.
-/
import TestScribe.Proofs.Once
import TestScribe.Proofs.Records
import TestScribe.Proofs.StepFaults
import TestScribe.Proofs.Writing

namespace TestScribe

/-! ## Modules on the disk -/

/-- A file that was given another name is read there. -/
theorem Disk.read?_of_rename_eq_ok {d d' : Disk} {source goal : Path} {content : ByteArray}
    (hread : d.read? source = some content) (h : rename source goal d = .ok () d') :
    d'.read? goal = some content := by
  obtain ⟨-, ⟨name, hend⟩, hway, hold⟩ := of_rename_eq_ok h
  obtain ⟨hworking, -, -, hkind⟩ := becomes_of_rename_eq_ok hread h
  have hfile := (read?_eq_some_iff.1 hread).2.2
  rw [read?_eq_some_iff, location_of_workingDirectory_eq hworking, way_of_workingDirectory_eq hworking,
    hkind, if_pos rfl]
  refine ⟨hend.ne_empty, fun v hv => ?_, rfl⟩
  -- the directories on the way are neither of the two places
  have hdirectory := hway v hv
  rw [hkind, if_neg, if_neg, hdirectory]
  · rintro rfl
    rw [hfile] at hdirectory
    cases hdirectory
  · rintro rfl
    exact hold hdirectory

/-- A module that was written is read as it was written. -/
theorem Emission.read?_of_emit_eq_ok {marker text : String} {directory output : Path} {d d' : Disk}
    (h : emit marker text directory output d = .ok () d') : d'.read? output = some text.toUTF8 := by
  obtain ⟨_, d₁, -, h⟩ := exists_of_bind_eq_ok h
  obtain ⟨_, d₂, hwrite, h⟩ := exists_of_bind_eq_ok h
  obtain ⟨_, d₃, hrename, hpackage⟩ := exists_of_bind_eq_ok h
  have hmodule := Disk.read?_of_rename_eq_ok (Disk.read?_of_write_eq_ok hwrite) hrename
  rw [ensurePackage_eq] at hpackage
  split at hpackage
  · cases hpackage
    exact hmodule
  · next hnone =>
    -- the package marker is new, so it is not written over the module
    obtain ⟨-, ⟨name, hend⟩, hway, hold⟩ := Disk.of_write_eq_ok hpackage
    obtain ⟨hworking, -, -, hkind⟩ := Disk.becomes_of_write_eq_ok hpackage
    obtain ⟨hne, hdirectories, hfile⟩ := Disk.read?_eq_some_iff.1 hmodule
    rw [Disk.read?_eq_some_iff, Disk.location_of_workingDirectory_eq hworking,
      Disk.way_of_workingDirectory_eq hworking, hkind]
    refine ⟨hne, fun v hv => ?_, ?_⟩
    · rw [hkind, if_neg, hdirectories v hv]
      rintro rfl
      exact hold (hdirectories _ hv)
    · rw [if_neg, hfile]
      intro hplace
      rw [hplace] at hfile
      exact hnone (Disk.isFile_iff.2 ⟨_, Disk.read?_eq_some_iff.2 ⟨hend.ne_empty, hway, hfile⟩⟩)

/-! ## The course of a run -/

section Course

variable (root : Path) (course : List Moment)

/-- One document has a step that calls another one, which is there to be loaded in the course. -/
def CallsIn (caller callee : Path × Value) : Prop :=
  ∃ document testcase, Legacy.normalize caller.2 = .ok document ∧
    Testcase.ofDocument document caller.1 = .ok testcase ∧
    (∃ step ∈ testcase.steps, ∃ ref, step.action = .call (.path ref) ∧ callee.1 = referenced root ref) ∧
    ∃ m ∈ course, Source.load m.session.disk callee.1 = .ok callee.2

/-- A text is that of the module of a document, with its calls resolved. -/
def IsModuleText (settings : Settings) (content : Value) (made : Made) (text : String) : Prop :=
  ∃ document testcase steps imports below script, Legacy.normalize content = .ok document ∧
    Testcase.ofDocument document made.source = .ok testcase ∧
    made.exports = testcase.config.exports.getD [] ∧
    Resolves (fun _ _ _ => True) [] testcase.steps steps imports ∧
    Naming.relative root made.source = .ok below ∧
    Make.script settings { testcase with steps } made.className imports below = .ok script ∧
    text = script.render

/-- The module of a document was written completely in the course, and then held its text. -/
def WrittenIn (content : Value) (entry : Path × Made) : Prop :=
  ∃ m ∈ course, m.writes = some entry.1 ∧ ∃ text d,
    IsModuleText root m.session.settings content entry.2 text ∧
    Emission.emit m.session.settings.packageMarker text entry.1.parent entry.1 m.session.disk = .ok () d ∧
    d.read? entry.1 = some text.toUTF8

/-- The writing of a module whose class was claimed failed in the course, and left the disk as it is. -/
def UnwrittenIn (e : Fault) (d : Disk) (c : ClassClaim) : Prop :=
  ∃ m ∈ course, ∃ output text u, m.writes = some output ∧ output.parent = c.directory ∧
    c ∈ m.session.classes ∧ Make.emit text output m.session = .error e u ∧ u.disk = d

/-- A module was written in the course for one of the given documents, and its source is none of those on
the stack. -/
structure Brought (documents : Path × Value → Prop) (stack : List Path) (entry : Path × Made) : Prop where
  off : ∀ p ∈ stack, ¬ entry.2.source.same p
  written : ∃ content, documents (entry.2.source, content) ∧ WrittenIn root course content entry

end Course

/-- A module defines a class that was claimed: it lies in the directory, has the class and is made from the
source. -/
structure Defines (entry : Path × Made) (c : ClassClaim) : Prop where
  directory : entry.1.parent.same c.directory
  className : entry.2.className = c.className
  source : entry.2.source.same c.source

/-- The class of a module is claimed by its source, in the directory of the module. -/
def Session.Claims (s : Session) (entry : Path × Made) : Prop :=
  ∃ c, s.claim? entry.1.parent entry.2.className = some c ∧ c.source.same entry.2.source

/-- A collision is reported with a source that has the module, or that has claimed the class. -/
structure Fault.Accuses (e : Fault) (s : Session) : Prop where
  file : ∀ first second output, e = .collision (.sameFile first second output) →
    ∃ made, s.made? output = some made ∧ made.source = first
  className : ∀ first second className directory,
    e = .collision (.sameClass first second className directory) →
      ∃ c, s.claim? directory className = some c ∧ c.source = first

theorem Fault.Accuses.of_category {e : Fault} (h : e.category ≠ .identifierCollision) (s : Session) :
    e.Accuses s := by
  constructor
  · rintro first second output rfl
    exact absurd rfl h
  · rintro first second className directory rfl
    exact absurd rfl h

/-- Modules are written in the course only where none had been made. -/
def WritesApart (course : List Moment) : Prop :=
  ∀ m ∈ course, ∀ output, m.writes = some output → m.session.made? output = none

/-- From one session to another, modules with `K` were made, up to the spelling of their paths.  They have claimed
their classes, and all classes claimed on the way are defined by modules, if each was written where there was
none. -/
structure Proceeds (course : List Moment) (K : Path × Made → Prop) (s t : Session) : Prop where
  locator : t.locator = s.locator
  resolving : t.resolving = s.resolving
  runSet : t.runSet = s.runSet
  made : ∃ new, t.made = s.made ++ new ∧ ∀ entry ∈ new, ∃ output : Path, output.same entry.1 ∧
    K (output, entry.2)
  classes : ∃ more, t.classes = s.classes ++ more ∧
    (WritesApart course → ∀ c ∈ more, ∃ entry ∈ t.made, Defines entry c)
  claimed : (∀ entry ∈ s.made, s.Claims entry) → ∀ entry ∈ t.made, t.Claims entry

/-- A run stops in a session with a fault.  At most the class of a module is claimed that could not be
written. -/
structure Stops (course : List Moment) (e : Fault) (s t : Session) : Prop where
  locator : t.locator = s.locator
  resolving : t.resolving = s.resolving
  runSet : t.runSet = s.runSet
  made : t.made = s.made
  classes : t.classes = s.classes ∨
    ∃ c, t.classes = s.classes ++ [c] ∧ s.claim? c.directory c.className = none ∧
      UnwrittenIn course e t.disk c
  accuses : e.Accuses s

/-- A run proceeds and then stops. -/
def Fails (course : List Moment) (K : Path × Made → Prop) (e : Fault) (s t : Session) : Prop :=
  ∃ mid, Proceeds course K s mid ∧ Stops course e mid t

section Relations

variable {root : Path} {course : List Moment} {K K' : Path × Made → Prop} {e : Fault} {s t u : Session}

theorem Session.Claims.of_append {entry : Path × Made} (h : s.Claims entry) {more : List ClassClaim}
    (hclasses : t.classes = s.classes ++ more) : t.Claims entry := by
  obtain ⟨c, hc, hsame⟩ := h
  exact ⟨c, Session.claim?_of_append hclasses hc, hsame⟩

theorem Brought.mono {documents documents' : Path × Value → Prop} {stack stack' : List Path}
    {entry : Path × Made} (h : Brought root course documents stack entry)
    (hdocuments : ∀ a, documents a → documents' a) (hstack : stack' ⊆ stack) :
    Brought root course documents' stack' entry := by
  obtain ⟨content, hcontent, hwritten⟩ := h.written
  exact ⟨fun p hp => h.off p (hstack hp), content, hdocuments _ hcontent, hwritten⟩

theorem Proceeds.refl (s : Session) : Proceeds course K s s :=
  ⟨rfl, rfl, rfl, ⟨[], by simp, by simp⟩, ⟨[], by simp, by simp⟩, id⟩

theorem Proceeds.trans (h : Proceeds course K s t) (h' : Proceeds course K t u) : Proceeds course K s u := by
  obtain ⟨new, hnew, hK⟩ := h.made
  obtain ⟨new', hnew', hK'⟩ := h'.made
  obtain ⟨more, hmore, hdefined⟩ := h.classes
  obtain ⟨more', hmore', hdefined'⟩ := h'.classes
  refine ⟨h'.locator.trans h.locator, h'.resolving.trans h.resolving, h'.runSet.trans h.runSet,
    ⟨new ++ new', by rw [hnew', hnew, List.append_assoc], ?_⟩,
    ⟨more ++ more', by rw [hmore', hmore, List.append_assoc], ?_⟩, fun hs => h'.claimed (h.claimed hs)⟩
  · intro entry hentry
    exact (List.mem_append.1 hentry).elim (hK entry) (hK' entry)
  · intro hapart c hc
    rcases List.mem_append.1 hc with hc | hc
    · obtain ⟨entry, hentry, hdefines⟩ := hdefined hapart c hc
      exact ⟨entry, by rw [hnew']; exact List.mem_append_left _ hentry, hdefines⟩
    · exact hdefined' hapart c hc

theorem Proceeds.mono (h : Proceeds course K s t) (hK : ∀ entry, K entry → K' entry) : Proceeds course K' s t := by
  obtain ⟨new, hnew, hall⟩ := h.made
  refine ⟨h.locator, h.resolving, h.runSet, ⟨new, hnew, fun entry hentry => ?_⟩, h.classes, h.claimed⟩
  obtain ⟨output, hsame, hentry⟩ := hall entry hentry
  exact ⟨output, hsame, hK _ hentry⟩

/-- A source is put on the stack and taken off it again. -/
theorem Proceeds.of_push {source : Path}
    (h : Proceeds course K { s with resolving := s.resolving ++ [source] } t) :
    Proceeds course K s { t with resolving := t.resolving.dropLast } := by
  refine ⟨h.locator, ?_, h.runSet, h.made, h.classes, h.claimed⟩
  show t.resolving.dropLast = s.resolving
  rw [h.resolving, List.dropLast_concat]

/-- A run stops without having changed anything. -/
theorem Stops.still (h : e.Accuses s) : Stops course e s s :=
  ⟨rfl, rfl, rfl, rfl, .inl rfl, h⟩

theorem Stops.pop (h : Stops course e s t) :
    Stops course e { s with resolving := s.resolving.dropLast }
      { t with resolving := t.resolving.dropLast } := by
  refine ⟨h.locator, ?_, h.runSet, h.made, h.classes, ⟨h.accuses.file, h.accuses.className⟩⟩
  show t.resolving.dropLast = s.resolving.dropLast
  rw [h.resolving]

theorem Proceeds.fails (h : Proceeds course K s t) (h' : Stops course e t u) : Fails course K e s u := ⟨t, h, h'⟩

theorem Proceeds.trans_fails (h : Proceeds course K s t) (h' : Fails course K e t u) : Fails course K e s u := by
  obtain ⟨mid, hmid, hstops⟩ := h'
  exact ⟨mid, h.trans hmid, hstops⟩

theorem Fails.mono (h : Fails course K e s t) (hK : ∀ entry, K entry → K' entry) :
    Fails course K' e s t := by
  obtain ⟨mid, hmid, hstops⟩ := h
  exact ⟨mid, hmid.mono hK, hstops⟩

theorem Fails.of_push {source : Path}
    (h : Fails course K e { s with resolving := s.resolving ++ [source] } t) :
    Fails course K e s { t with resolving := t.resolving.dropLast } := by
  obtain ⟨mid, hmid, hstops⟩ := h
  exact ⟨_, hmid.of_push, hstops.pop⟩

/-- A class is claimed for a module that is to be written: its source had claimed it before, or no source had
and it is claimed now. -/
structure NowClaims (c : ClassClaim) (s t : Session) : Prop where
  grows : t = s ∨ t = { s with classes := s.classes ++ [c] } ∧ s.claim? c.directory c.className = none
  holds : ∃ c', t.claim? c.directory c.className = some c' ∧ c'.source.same c.source

theorem NowClaims.locator {c : ClassClaim} (h : NowClaims c s t) : t.locator = s.locator := by
  rcases h.grows with rfl | ⟨rfl, -⟩ <;> rfl

theorem NowClaims.settings {c : ClassClaim} (h : NowClaims c s t) : t.settings = s.settings := by
  rcases h.grows with rfl | ⟨rfl, -⟩ <;> rfl

theorem NowClaims.made {c : ClassClaim} (h : NowClaims c s t) : t.made = s.made := by
  rcases h.grows with rfl | ⟨rfl, -⟩ <;> rfl

theorem NowClaims.classes {c : ClassClaim} (h : NowClaims c s t) :
    ∃ more, t.classes = s.classes ++ more ∧ ∀ c' ∈ more, c' = c := by
  rcases h.grows with rfl | ⟨rfl, -⟩
  · exact ⟨[], (List.append_nil _).symm, by simp⟩
  · exact ⟨[c], rfl, by simp⟩

/-- The module of a class that was claimed for it is kept, after those that were made on the way. -/
theorem Proceeds.keep {output source : Path} {className : String} {exports : List String}
    (h : Proceeds course K s t) (hclaims : NowClaims ⟨output.parent, className, source⟩ t u)
    (hnone : s.made? output = none) (hfree : WritesApart course → u.made? output = none)
    (hK : K (output, ⟨source, className, exports⟩)) (d : Disk) :
    Proceeds course K s (Session.keep { u with disk := d } output ⟨source, className, exports⟩) := by
  obtain ⟨new, hnew, hall⟩ := h.made
  obtain ⟨more, hmore, hdefined⟩ := h.classes
  obtain ⟨more', hmore', hclaimed⟩ := hclaims.classes
  refine ⟨?_, ?_, ?_, ⟨Made.put ⟨source, className, exports⟩ output new, ?_, ?_⟩, ⟨more ++ more', ?_, ?_⟩, ?_⟩
  · exact hclaims.locator.trans h.locator
  · rcases hclaims.grows with rfl | ⟨rfl, -⟩ <;> exact h.resolving
  · rcases hclaims.grows with rfl | ⟨rfl, -⟩ <;> exact h.runSet
  · rw [← Made.put_append (Session.made?_eq_none_iff.1 hnone), ← hnew, ← hclaims.made]
    rfl
  · intro entry hentry
    rcases Made.mem_put hentry with hentry | ⟨hsame, hmade⟩
    · exact hall entry hentry
    · rw [Path.same_iff] at hsame
      exact ⟨output, Path.same_iff.2 hsame.symm, hmade ▸ hK⟩
  · rw [← List.append_assoc, ← hmore, ← hmore']
    rfl
  · intro hapart c hc
    rw [Session.made_keep (s := { u with disk := d }) (hfree hapart)]
    rcases List.mem_append.1 hc with hc | hc
    · obtain ⟨entry, hentry, hdefines⟩ := hdefined hapart c hc
      exact ⟨entry, List.mem_append_left _ (hclaims.made ▸ hentry), hdefines⟩
    · rw [hclaimed c hc]
      exact ⟨_, List.mem_append_right _ List.mem_cons_self, Path.same_iff.2 rfl, rfl, Path.same_iff.2 rfl⟩
  · intro hold entry hentry
    rcases Made.mem_put hentry with hentry | ⟨hsame, hmade⟩
    · exact (h.claimed hold entry (hclaims.made ▸ hentry)).of_append hmore'
    · obtain ⟨c, hc, hsource⟩ := hclaims.holds
      rw [← Session.claim?_of_same (Path.same_parent hsame)] at hc
      rw [Session.Claims, hmade]
      exact ⟨c, hc, hsource⟩

end Relations

/-! ## Steps without collisions -/

/-- A step reports no collision. -/
def Make.Quiet {α : Type} (step : Make α) : Prop :=
  ∀ s e t, step s = .error e t → e.category ≠ .identifierCollision

namespace Make.Quiet

/-- What lies in the inputs of a run is no collision. -/
theorem of_blames {α : Type} {step : Make α} (h : Blames (·.concernsInput) step) : Quiet step :=
  h.mono fun _ => Fault.category_ne_of_concernsInput

theorem get : Quiet get := Blames.get

theorem opened (source : Path) (step : Step) (raw : String) : Quiet (Make.opened source step raw) :=
  of_blames (blames_opened source step raw)

theorem moduleName (p : Path) : Quiet (Make.moduleName p) := of_blames (blames_moduleName p)

theorem foundAt (output : Path) : Quiet (Make.foundAt output) := by
  refine Blames.bind .get fun s => ?_
  cases s.made? output with
  | some made => exact .pure _
  | none => exact .throw (by simp [Fault.category])

theorem scripted (testcase : Testcase) (className : String) (imports : List Import) :
    Quiet (Make.scripted testcase className imports) := by
  refine Blames.bind (of_blames (blames_relative _)) fun below => .bind .get fun s => ?_
  exact .ofExcept fun _ _ => by simp [Fault.category]

theorem drafted (raw : Value) (source : Path) (outputDirectory : Option Path) :
    Quiet (Make.drafted raw source outputDirectory) :=
  of_blames (blames_drafted raw source outputDirectory)

theorem emit (text : String) (output : Path) : Quiet (Make.emit text output) := of_blames (blames_emit text output)

end Make.Quiet

/-- A class that another source has claimed is a collision, a class that no source has claimed is claimed. -/
theorem Make.claimClass_eq (output : Path) (className : String) (source : Path) (s : Session) :
    claimClass output className source s = match s.claim? output.parent className with
      | some c =>
        if c.source.same source then .ok () s
        else .error (.collision (.sameClass c.source source className output.parent)) s
      | none => .ok () { s with classes := s.classes ++ [⟨output.parent, className, source⟩] } := by
  unfold claimClass
  rw [bind_get]
  cases s.claim? output.parent className with
  | some c =>
    dsimp only
    split <;> rfl
  | none => rfl

/-! ## Runs -/

/-- The root is fixed at a moment. -/
def FixedAt (root : Path) (m : Moment) : Prop := m.session.locator = .fixed root

namespace Observed

variable {root : Path} {course : List Moment} {depth : Nat} {s t : Session}

/-- A step that looks something up leaves the session as it is, or the run stops there. -/
theorem stops_lookup {α : Type} {step : Make α} {P : α → Prop} (hroot : s.locator = .fixed root)
    (hquiet : Make.Quiet step) (h : (⟨s, depth, none, none⟩ : Moment) ∈ course → LooksUp step s P) :
    Runs (· ∈ course) (FixedAt root) (ofMake depth step) s (fun a t => s = t ∧ P a)
      fun e t => Stops course e s t := by
  refine .of_eq rfl (fun _ => hroot) fun hm => ?_
  have hends := (h hm).ends
  cases hstep : step s with
  | ok a u =>
    rw [hstep] at hends
    exact ⟨(hends.1.fixed hroot).symm, hends.2⟩
  | error e u =>
    rw [hstep] at hends
    obtain rfl := hends.1.fixed hroot
    exact .still (.of_category (hquiet _ e _ hstep) _)

/-- A class is claimed, or the run stops at a collision. -/
theorem stops_claimClass (hroot : s.locator = .fixed root) (output : Path) (className : String)
    (source : Path) :
    Runs (· ∈ course) (FixedAt root) (ofMake depth (Make.claimClass output className source)) s
      (fun _ => NowClaims ⟨output.parent, className, source⟩ s) fun e t => Stops course e s t := by
  refine .of_eq rfl (fun _ => hroot) fun _ => ?_
  have hends := Make.ends_claimClass output className source s
  rw [Make.claimClass_eq] at hends ⊢
  cases hold : s.claim? output.parent className with
  | none =>
    rw [hold] at hends
    exact ⟨.inr ⟨rfl, hold⟩, hends.2.1⟩
  | some c =>
    dsimp only
    split
    · next hsame => exact ⟨.inl rfl, c, hold, hsame⟩
    · refine .still ⟨by rintro _ _ _ ⟨⟩, ?_⟩
      rintro _ _ _ _ ⟨⟩
      exact ⟨c, hold, rfl⟩

/-- A module is written whose class was claimed for it, or the run stops with the class claimed. -/
theorem stops_emit {output source : Path} {className : String} (hroot : s.locator = .fixed root)
    (h : NowClaims ⟨output.parent, className, source⟩ s t) (text : String) :
    Runs (· ∈ course) (FixedAt root) (emit depth text output) t
      (fun _ u => ∃ d, u = { t with disk := d } ∧ (⟨t, depth, some output, none⟩ : Moment) ∈ course ∧
        Emission.emit t.settings.packageMarker text output.parent output t.disk = .ok () d)
      fun e u => Stops course e s u := by
  refine .of_eq rfl (fun _ => h.locator.trans hroot) fun hm => ?_
  have hends := Make.ends_emit t.settings.covers_true (fun _ (_ : output.EndsIn _) => trivial) text
  cases hrun : Make.emit text output t with
  | ok _ u =>
    rw [hrun] at hends
    obtain ⟨⟨d, rfl, -, hemit⟩, -⟩ := hends
    exact ⟨d, rfl, hm, hemit⟩
  | error e u =>
    rw [hrun] at hends
    obtain ⟨⟨d, rfl, -⟩, -⟩ := hends
    have haccuses : e.Accuses s := .of_category (Make.Quiet.emit text output t e _ hrun) s
    rcases h.grows with rfl | ⟨rfl, hnone⟩
    · exact ⟨rfl, rfl, rfl, rfl, .inl rfl, haccuses⟩
    · refine ⟨rfl, rfl, rfl, rfl, .inr ⟨_, rfl, hnone, _, hm, output, text, _, rfl, rfl, ?_, hrun, rfl⟩,
        haccuses⟩
      exact List.mem_append_right _ List.mem_cons_self

/-- What is claimed of the calls that are nested in a run. -/
def ProceedsNested (root : Path) (course : List Moment) (nested : Value → Path → Observed Path) : Prop :=
  ∀ (content : Value) (p : Path) (s : Session), s.locator = .fixed root → p.normalize = p →
    Runs (· ∈ course) (FixedAt root) (nested content p) s
      (fun _ => Proceeds course (Brought root course (Relation.ReflTransGen (CallsIn root course) (p, content))
        s.resolving) s)
      fun e => Fails course (Brought root course (Relation.TransGen (CallsIn root course) (p, content))
        (s.resolving ++ [p])) e s

/-- The calls of some steps are resolved one after the other, whatever the calls do. -/
theorem resolves_resolveSteps {U : Moment → Prop} {nested : Value → Path → Observed Path} {source : Path}
    (imports : List Import) (steps : List Step) :
    Runs U (fun _ => True) (resolveSteps depth nested source imports steps) s
      (fun resolved _ => Resolves (fun _ _ _ => True) imports steps resolved.1 resolved.2)
      fun _ _ => True := by
  have hany : ∀ {α : Type} (step : Observed α) (s : Session),
      Runs U (fun _ => True) step s (fun _ _ => True) fun _ _ => True := by
    intro α step s
    refine ⟨fun _ _ _ => trivial, fun _ => ?_⟩
    cases (step s).1 <;> trivial
  induction steps generalizing s imports with
  | nil => exact .pure (.nil imports)
  | cons step rest ih =>
    have hstep : Runs U (fun _ => True) (resolveStep depth nested source imports step) s
        (fun resolved _ => ResolvesTo (fun _ _ _ => True) imports step resolved.1 resolved.2)
        fun _ _ => True := by
      unfold resolveStep
      split
      · next raw haction =>
        refine .bind (hany _ s) ?_
        rintro ⟨output, made⟩ t -
        exact .bind (hany _ t) fun name u _ => .pure (.call haction trivial)
      · next hother => exact .pure (.keep hother)
    unfold resolveSteps
    refine .bind hstep ?_
    rintro ⟨resolved, imports⟩ t hresolved
    refine .bind (ih imports) ?_
    rintro ⟨more, imports⟩ u hmore
    exact .pure (.cons hresolved hmore)

section Nested

variable {nested : Value → Path → Observed Path} (hnested : ProceedsNested root course nested)
  {raw : Value} {document : Mapping} {testcase : Testcase} {source : Path}

include hnested

/-- The modules that are made for a call are those of documents behind it. -/
theorem proceeds_called (hroot : s.locator = .fixed root) {step : Step} {ref : String}
    (hcalls : ∀ content, (∃ m ∈ course, Source.load m.session.disk (referenced root ref) = .ok content) →
      CallsIn root course (source, raw) (referenced root ref, content)) :
    Runs (· ∈ course) (FixedAt root) (called depth nested source step ref) s
      (fun _ => Proceeds course (Brought root course (Relation.TransGen (CallsIn root course) (source, raw))
        s.resolving) s)
      fun e => Fails course (Brought root course (Relation.TransGen (CallsIn root course) (source, raw))
        s.resolving) e s := by
  have hopened : Runs (· ∈ course) (FixedAt root) (ofMake depth (Make.opened source step ref)) s
      (fun found t => s = t ∧ found.2.normalize = found.2 ∧
        CallsIn root course (source, raw) (found.2, found.1)) fun e t => Stops course e s t := by
    refine stops_lookup hroot (.opened source step ref) fun hm => ?_
    refine (Make.looksUp_opened source step ref).mono ?_
    rintro ⟨content, p⟩ ⟨hnormal, hload, hp⟩
    obtain rfl : p = referenced root ref := hp root hroot
    exact ⟨hnormal, hcalls content ⟨_, hm, hload⟩⟩
  unfold called
  refine .bind (hopened.mono (fun _ _ h => h) fun e t h => (Proceeds.refl s).fails h) ?_
  rintro ⟨content, p⟩ _ ⟨rfl, hnormal, hcall⟩
  -- what is reached from the callee is reached from the caller
  have hcallee : Runs (· ∈ course) (FixedAt root) (nested content p) s
      (fun _ => Proceeds course (Brought root course (Relation.TransGen (CallsIn root course) (source, raw))
        s.resolving) s)
      fun e => Fails course (Brought root course (Relation.TransGen (CallsIn root course) (source, raw))
        s.resolving) e s := by
    refine (hnested content p s hroot hnormal).mono ?_ ?_
    · exact fun output t h => h.mono fun entry hentry =>
        hentry.mono (fun a ha => Relation.TransGen.head' hcall ha) (List.Subset.refl _)
    · exact fun e t h => h.mono fun entry hentry =>
        hentry.mono (fun a ha => Relation.TransGen.head hcall ha) (List.subset_append_left _ _)
  refine .bind hcallee ?_
  intro output t ht
  refine (stops_lookup (ht.locator.trans hroot) (.foundAt output) fun _ =>
    Make.looksUp_foundAt output).mono ?_ fun e u h => ht.fails h
  rintro found _ ⟨rfl, -⟩
  exact ht

/-- The calls of a module are made while its source is on the stack. -/
theorem proceeds_resolved (hroot : s.locator = .fixed root) (hdocument : Legacy.normalize raw = .ok document)
    (htestcase : Testcase.ofDocument document source = .ok testcase) :
    Runs (· ∈ course) (FixedAt root)
      (whileResolving source (resolveSteps depth nested source [] testcase.steps)) s
      (fun resolved t => Proceeds course (Brought root course (Relation.TransGen (CallsIn root course) (source, raw))
          (s.resolving ++ [source])) s t ∧
        Resolves (fun _ _ _ => True) [] testcase.steps resolved.1 resolved.2)
      fun e => Fails course (Brought root course (Relation.TransGen (CallsIn root course) (source, raw))
        (s.resolving ++ [source])) e s := by
  apply Runs.whileResolving
  set pushed : Session := { s with resolving := s.resolving ++ [source] } with hpushed
  set K := Brought root course (Relation.TransGen (CallsIn root course) (source, raw)) pushed.resolving
  have hfixed : ∀ {t}, Proceeds course K pushed t → t.locator = .fixed root := fun h => h.locator.trans hroot
  refine ((Runs.resolveSteps (R := Proceeds course K) (C := fun _ _ => True) (E := fun e => Fails course K e pushed)
    .refl .trans (fun _ _ => trivial) ?_ ?_ []).and (resolves_resolveSteps [] testcase.steps)).mono
    (fun _ _ h => ⟨h.1.1.of_push, h.2⟩) fun _ _ h => h.1.of_push
  · intro t ht step hstep ref href
    have hcalled : Runs (· ∈ course) (FixedAt root) (called depth nested source step ref) t _ _ :=
      proceeds_called hnested (hfixed ht) fun content hload =>
        ⟨document, testcase, hdocument, htestcase, ⟨step, hstep, ref, href, rfl⟩, hload⟩
    rw [ht.resolving] at hcalled
    exact hcalled.mono (fun _ _ h => ⟨h, trivial⟩) fun _ _ h => ht.trans_fails h
  · intro t ht output
    refine (stops_lookup (hfixed ht) (.moduleName output) fun _ =>
      Make.looksUp_moduleName output).mono ?_ fun _ _ h => ht.fails h
    rintro name _ ⟨rfl, -⟩
    exact .refl _

/-- A module is made after those it calls; if it cannot be written, its class may be claimed in vain. -/
theorem proceeds_build (hroot : s.locator = .fixed root) (hdocument : Legacy.normalize raw = .ok document)
    (htestcase : Testcase.ofDocument document source = .ok testcase)
    (hnew : (s.resolving.any (·.same source)) = false) {output : Path} (hnone : s.made? output = none)
    (className : String) :
    Runs (· ∈ course) (FixedAt root) (build depth nested raw testcase output className) s
      (fun _ => Proceeds course (Brought root course (Relation.ReflTransGen (CallsIn root course) (source, raw))
        s.resolving) s)
      fun e => Fails course (Brought root course (Relation.TransGen (CallsIn root course) (source, raw))
        (s.resolving ++ [source])) e s := by
  obtain rfl : testcase.config.source = source := Testcase.source_of_ofDocument htestcase
  unfold build
  refine .bind (proceeds_resolved hnested hroot hdocument htestcase) ?_
  rintro ⟨steps, imports⟩ t ⟨ht, hsteps⟩
  have htroot := ht.locator.trans hroot
  refine .bind ((stops_lookup htroot (.scripted _ _ _) fun _ => Make.looksUp_scripted _ _ _).mono
    (fun _ _ h => h) fun e u h => ht.fails h) ?_
  rintro script _ ⟨rfl, below, -, hbelow, hscript⟩
  replace hbelow := hbelow root htroot
  refine .bind ((stops_claimClass htroot output className testcase.config.source).mono (fun _ _ h => h)
    fun e u h => ht.fails h) ?_
  intro _ u hu
  refine .bind ((stops_emit htroot hu script.render).mono (fun _ _ h => h) fun e v h => ht.fails h) ?_
  rintro _ _ ⟨d, rfl, hm, hemit⟩
  rw [← hu.settings] at hscript
  have hwritten : WrittenIn root course raw
      (output, ⟨testcase.config.source, className, testcase.config.exports.getD []⟩) :=
    ⟨_, hm, rfl, script.render, d, ⟨document, testcase, steps, imports, below, script, hdocument, htestcase,
      rfl, hsteps, hbelow, hscript, rfl⟩, hemit, Emission.read?_of_emit_eq_ok hemit⟩
  refine .of_eq rfl (fun _ => hu.locator.trans htroot) fun _ => ?_
  exact (ht.mono fun other hother => hother.mono (fun _ h => h.to_reflTransGen)
    (List.subset_append_left _ _)).keep hu hnone (fun hapart => hapart _ hm output rfl)
    ⟨Path.not_same_of_any hnew, raw, .refl, hwritten⟩ d

theorem proceeds_testcaseWith (hroot : s.locator = .fixed root) (raw : Value) (source : Path)
    (outputDirectory : Option Path) :
    Runs (· ∈ course) (FixedAt root) (testcaseWith depth nested raw source outputDirectory) s
      (fun _ => Proceeds course (Brought root course
        (Relation.ReflTransGen (CallsIn root course) (source.normalize, raw)) s.resolving) s)
      fun e => Fails course (Brought root course
        (Relation.TransGen (CallsIn root course) (source.normalize, raw))
        (s.resolving ++ [source.normalize])) e s := by
  have hstill : ∀ {e u}, Stops course e s u → Fails course (Brought root course
      (Relation.TransGen (CallsIn root course) (source.normalize, raw))
      (s.resolving ++ [source.normalize])) e s u := fun h => (Proceeds.refl s).fails h
  unfold testcaseWith
  refine .bind ((stops_lookup hroot (.drafted _ _ _) fun _ => Make.looksUp_drafted _ _ _).mono
    (fun _ _ h => h) fun _ _ => hstill) ?_
  rintro ⟨testcase, output, className⟩ _ ⟨rfl, ⟨document, hdocument, htestcase⟩, -⟩
  refine .bind ((stops_lookup hroot .get fun _ => .get).mono (fun _ _ h => h) fun _ _ => hstill) ?_
  rintro _ _ ⟨rfl, rfl⟩
  cases hmade : s.made? output with
  | some made =>
    dsimp only
    split
    · exact .pure (.refl s)
    · refine .of_eq rfl (fun _ => hroot) fun _ => hstill (.still ⟨?_, by rintro _ _ _ _ ⟨⟩⟩)
      rintro _ _ _ ⟨⟩
      exact ⟨made, hmade, rfl⟩
  | none =>
    dsimp only
    split
    · exact .of_eq rfl (fun _ => hroot) fun _ =>
        hstill (.still (.of_category (by simp [Fault.category]) s))
    · next hnew =>
      rw [Bool.not_eq_true] at hnew
      exact .bind (proceeds_build hnested hroot hdocument htestcase hnew hmade className)
        fun _ t ht => .pure ht

end Nested

/-- A run makes the modules of documents that are called on the way and then its own, or it proceeds to some
session and stops there. -/
theorem proceeds_testcaseWithin {fuel : Nat} (hroot : s.locator = .fixed root) (raw : Value) (source : Path)
    (outputDirectory : Option Path) :
    Runs (· ∈ course) (FixedAt root) (testcaseWithin depth fuel raw source outputDirectory) s
      (fun _ => Proceeds course (Brought root course
        (Relation.ReflTransGen (CallsIn root course) (source.normalize, raw)) s.resolving) s)
      fun e => Fails course (Brought root course
        (Relation.TransGen (CallsIn root course) (source.normalize, raw))
        (s.resolving ++ [source.normalize])) e s := by
  induction fuel generalizing depth s raw source outputDirectory with
  | zero =>
    exact .of_eq rfl (fun _ => hroot) fun _ =>
      (Proceeds.refl s).fails (.still (.of_category (by simp [Fault.category]) s))
  | succ fuel ih =>
    refine proceeds_testcaseWith ?_ hroot raw source outputDirectory
    intro content p t ht hnormal
    have hrun := @ih (depth + 1) t ht content p none
    rwa [hnormal] at hrun

end Observed

/-! ## After a failure -/

section Orders

variable {root : Path} {s t : Session}

/-- The course of a run that fails, in which it proceeds to some session and stops there. -/
theorem Make.fails_of_eq_error (hroot : s.locator = .fixed root) {fuel : Nat} {raw : Value} {source : Path}
    {outputDirectory : Option Path} {e : Fault}
    (h : testcaseWithin fuel raw source outputDirectory s = .error e t) :
    let course := (Observed.testcaseWithin 1 fuel raw source outputDirectory s).2
    Fails course (Brought root course (Relation.TransGen (CallsIn root course) (source.normalize, raw))
      (s.resolving ++ [source.normalize])) e s t := by
  intro course
  have hruns : Runs (· ∈ course) (FixedAt root) (Observed.testcaseWithin 1 fuel raw source outputDirectory) s
      _ _ := Observed.proceeds_testcaseWithin hroot raw source outputDirectory
  have hends := hruns.ends fun m hm => hm
  rw [Observed.testcaseWithin_fst, h] at hends
  exact hends

/-- An order proceeds to its end, or to some session and stops there. -/
theorem Order.proceeds (o : Order) (hroot : s.locator = .fixed root) :
    let course := (o.observed s).2
    let document := ((Path.ofString o.source).normalize, o.document)
    Runs (· ∈ course) (FixedAt root) o.observed s
      (fun _ => Proceeds course (Brought root course (Relation.ReflTransGen (CallsIn root course) document)
        s.resolving) s)
      fun e => Fails course (Brought root course (Relation.TransGen (CallsIn root course) document)
        (s.resolving ++ [document.1])) e s := by
  intro course document
  refine .bind ((Observed.stops_lookup hroot .get fun _ => .get).mono (fun _ _ h => h)
    fun _ _ h => (Proceeds.refl s).fails h) ?_
  rintro _ _ ⟨rfl, rfl⟩
  exact Observed.proceeds_testcaseWithin hroot o.document (.ofString o.source) _

theorem Order.ends_make (o : Order) (hroot : s.locator = .fixed root) :
    ∃ K K', Ends (fun _ => Proceeds (o.observed s).2 K s) (Fails (o.observed s).2 K' · s) (o.make s) := by
  have hends := (o.proceeds hroot).ends fun m hm => hm
  rw [o.observed_fst] at hends
  exact ⟨_, _, hends⟩

/-- An order writes no module where there is one, if the suffix stays within a file name. -/
theorem Order.writesApart (o : Order) {suffix : String} {before : List (Path × Made)} (hplain : root.IsPlain)
    (hsuffix : '/' ∉ suffix.toList) (hs : Since root suffix before s) : WritesApart (o.observed s).2 :=
  fun m hm => ((adds_order hplain hsuffix hs o).moments (fun _ _ => trivial) m hm).fresh

end Orders

/-- **A failed run leaves nothing half done.**  In every session of a project with a fixed root, whatever is
on its stack, among its files to run and among its modules, and for every run that fails, within its own bound
on the nesting of calls or any other:

* the stack and the files to run are as before;
* a module that was there is there as before;
* a module that is new was not made from the source of the run.  It was made from a document that is called,
  through any number of documents that were there to be loaded in the course of the run, and in this course
  it was written completely. -/
theorem failed_run_leaves_nothing_half_done (root : Path) (s : Session) (hroot : s.locator = .fixed root)
    (fuel : Nat) (raw : Value) (source : Path) (outputDirectory : Option Path) (e : Fault) (t : Session)
    (hfails : Make.testcaseWithin fuel raw source outputDirectory s = .error e t) :
    let course := (Observed.testcaseWithin 1 fuel raw source outputDirectory s).2
    t.resolving = s.resolving ∧ t.runSet = s.runSet ∧
    (∀ p made, s.made? p = some made → t.made? p = some made) ∧
    ∀ p made, s.made? p = none → t.made? p = some made →
      ¬ made.source.same source.normalize ∧
      ∃ output content, output.same p ∧
        Relation.TransGen (CallsIn root course) (source.normalize, raw) (made.source, content) ∧
        WrittenIn root course content (output, made) := by
  intro course
  obtain ⟨mid, hmid, hstops⟩ := Make.fails_of_eq_error hroot hfails
  obtain ⟨new, hnew, hbrought⟩ := hmid.made
  have hmade : t.made = s.made ++ new := hstops.made.trans hnew
  refine ⟨hstops.resolving.trans hmid.resolving, hstops.runSet.trans hmid.runSet, ?_, ?_⟩
  · exact fun p made => Session.made?_of_prefix ⟨new, hmade.symm⟩
  · intro p made hnone hsome
    obtain ⟨output, hentry, hsame⟩ := Session.exists_mem_of_made? hsome
    rw [Session.made?_eq_none_iff] at hnone
    rw [hmade] at hentry
    have hentry : (output, made) ∈ new :=
      (List.mem_append.1 hentry).resolve_left fun hold => hnone _ hold hsame
    obtain ⟨output', hsame', hoff, content, hcalled, hwritten⟩ := hbrought _ hentry
    rw [Path.same_iff] at hsame hsame'
    exact ⟨hoff _ (List.mem_append_right _ List.mem_cons_self), output', content,
      Path.same_iff.2 (hsame'.trans hsame), hcalled, hwritten⟩

/-- A document that calls two testcases. -/
def callerOfTwo (first second : String) : Value :=
  .mapping [("config", .mapping [("name", .text "a")]),
    ("teststeps", .list [.mapping [("name", .text "call"), ("testcase", .text first)],
      .mapping [("name", .text "call"), ("testcase", .text second)]])]

/-- A session in the middle of a run, with a module that is to be run and a source on the stack. -/
def midway : Session where
  settings := {}
  locator := .fixed (.ofString "/p")
  disk := oneTestcase
  runSet := [.ofString "/p/old_test.py"]
  resolving := [.ofString "/p/z.json"]

/-- The second testcase that a document calls is missing, and the module of the first one is there. -/
theorem failed_run_leaves_nothing_half_done_missing :
    let source := Path.ofString "/p/a.json"
    let raw := callerOfTwo "b.json" "c.json"
    let course := (Observed.testcaseWithin 1 (Make.depthBound oneTestcase) raw source none midway).2
    midway.locator = .fixed (.ofString "/p") ∧ ∃ e t, Make.testcase raw source none midway = .error e t ∧
      t.made.map (fun entry => entry.1.text) = ["/p/b_test.py"] ∧ t.resolving = [.ofString "/p/z.json"] ∧
      t.runSet = [.ofString "/p/old_test.py"] ∧
      ∀ p made, t.made? p = some made → ¬ made.source.same source.normalize ∧
        ∃ output content, output.same p ∧
          Relation.TransGen (CallsIn (.ofString "/p") course) (source.normalize, raw)
            (made.source, content) ∧
          WrittenIn (.ofString "/p") course content (output, made) := by
  intro source raw course
  have hrun : fails (fun _ t => decide (t.made.map (fun entry => entry.1.text) = ["/p/b_test.py"]))
      (Make.testcase raw source none midway) = true := by decide +kernel
  obtain ⟨e, t, hresult, hmade⟩ := exists_of_fails hrun
  obtain ⟨hresolving, hrunSet, -, hnew⟩ := failed_run_leaves_nothing_half_done (.ofString "/p") midway rfl
    (Make.depthBound oneTestcase) raw source none e t hresult
  exact ⟨rfl, e, t, hresult, of_decide_eq_true hmade, hresolving, hrunSet, fun p made => hnew p made rfl⟩

end TestScribe
