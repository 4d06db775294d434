/-
# What reports say about the disk

A batch reports the modules made in the session and the files to run.  A module that is known to the session
is not written again, but the output directory is emptied before every batch, or a part of it where the removal
stops on the way and the batch fails.  So a module that lay in it is still reported by later batches, and is no
longer there.  Over any batches in one session, a module holds its text if and only if none of them removed it in
this way after it was made.

* `IsRunPath` : paths of files to run;
* `Furthers`, `Batch.carries_furthers` : what making the files of a batch does;
* `Job`, `Lost` : the batches of a session, and what one of them removed with its output directory;
* `Truthful`, `truthful_afterJobs` : what is true after any batches;
* `generated_true_unless_lost` : when a report is true.
-/
import TestScribe.Proofs.Holding
import TestScribe.Proofs.Wiping

namespace TestScribe

/-! ## Names of temporary files -/

theorem IsTemporaryName.append {name : String} (h : IsTemporaryName name) (front : String) :
    IsTemporaryName (front ++ name) := by
  obtain ⟨more, rfl⟩ := h
  exact ⟨front ++ more, String.append_assoc.symm⟩

/-- The lower-case form of what follows does not change what comes before it. -/
theorem Text.exists_lowerAfter_append (cs ds : List Char) (before : List Char) :
    ∃ front, lowerAfter before (cs ++ ds) = front ++ lowerAfter (cs.reverse ++ before) ds := by
  induction cs generalizing before with
  | nil => exact ⟨[], rfl⟩
  | cons c cs ih =>
    obtain ⟨front, hfront⟩ := ih (c :: before)
    rw [List.reverse_cons, List.append_assoc, List.singleton_append, List.cons_append, lowerAfter, hfront]
    split
    · exact ⟨_ :: front, rfl⟩
    · exact ⟨lowerOf c ++ front, (List.append_assoc ..).symm⟩

theorem IsTemporaryName.lower {name : String} (h : IsTemporaryName name) :
    IsTemporaryName (Text.lower name) := by
  obtain ⟨more, rfl⟩ := h
  obtain ⟨front, hfront⟩ := Text.exists_lowerAfter_append more.toList ".tmp".toList []
  refine ⟨String.ofList front, ?_⟩
  rw [Text.lower, String.toList_append, hfront, String.ofList_append]
  congr 1

/-- No temporary file is taken for a generated module. -/
def Settings.RunsNoTemporary (settings : Settings) : Prop :=
  ∀ name, IsTemporaryName name → Text.endsIn (Text.lower settings.generatedSuffix) name = false

theorem Settings.runsNoTemporary_default : ({} : Settings).RunsNoTemporary := by
  rintro _ ⟨front, rfl⟩
  have hsuffix : Text.lower ({} : Settings).generatedSuffix = "_test.py" := by decide +kernel
  rw [hsuffix, ← Bool.not_eq_true, Text.endsIn, List.isSuffixOf_iff_suffix]
  intro h
  have hlast := h.getLast (by decide)
  simp at hlast

/-! ## Paths of files to run -/

/-- A file to run is known by a path that names the file at its place, which is not a temporary one. -/
structure IsRunPath (p : Path) : Prop where
  read? : ∀ (d : Disk) content, d.read? p = some content ↔ d.kind? (d.location p) = some (.file content)
  named : ∀ d : Disk, ¬ Disk.Named IsTemporaryName (d.location p)

/-- An absolute path in normal form that counts as generated. -/
theorem isRunPath_of_isGenerated {settings : Settings} (hlisted : settings.RunsNoTemporary) {p : Path}
    (hp : p.normalize = p) (habsolute : p.isAbsolute = true)
    (h : Batch.isGenerated settings.generatedSuffix p = true) : IsRunPath p := by
  refine ⟨fun d content => Disk.read?_eq_some_iff_of_normal hp habsolute, ?_⟩
  rintro d ⟨name, hname, htemporary⟩
  obtain ⟨-, ups, names, hups, hnames, hpieces⟩ := Path.exists_names_of_normal hp
  have hlocation : d.location p = names := by
    rw [Disk.location, Disk.allPieces_of_normal hp, hpieces, List.foldl_append, Disk.start,
      if_pos habsolute, Disk.foldl_advance_names hnames]
    rcases hups with rfl | rfl <;> rfl
  rw [hlocation] at hname
  obtain ⟨before, rfl⟩ := List.getLast?_eq_some_iff.1 hname
  -- the text of the path ends in the name
  obtain ⟨front, hfront⟩ := Text.exists_joinWith_concat "/" (ups ++ before) name
  have htext : p.text = "/" ++ front ++ name := by
    rw [Path.text, of_decide_eq_true habsolute]
    dsimp only
    rw [hpieces, ← List.append_assoc, hfront, String.append_assoc]
  rw [Batch.isGenerated, htext, hlisted _ (htemporary.append _).lower] at h
  cases h

/-- All paths of a module lead to the same place. -/
theorem Naming.IsPlaced.location_eq {suffix : String} {p q : Path} (hp : Naming.IsPlaced suffix p)
    (hsame : p.same q) (d : Disk) : d.location q = d.location p := by
  obtain ⟨names, hdown⟩ := hp.down
  have hdown' : q.GoesDown names := (Path.same_iff.1 hsame).symm.trans hdown
  rw [Disk.location_of_goesDown hdown, Disk.location_of_goesDown hdown']

/-- A path of a module that ends in a name. -/
theorem Naming.IsPlaced.isRunPath {settings : Settings} (hnames : settings.NamesApart) {p q : Path}
    (hp : Naming.IsPlaced settings.generatedSuffix p) (hsame : p.same q) {name : String}
    (hend : q.EndsIn name) : IsRunPath q := by
  obtain ⟨names, hdown⟩ := hp.down
  have hdown' : q.GoesDown names := (Path.same_iff.1 hsame).symm.trans hdown
  refine ⟨fun d content => Disk.read?_eq_some_iff_of_goesDown hdown' hend, ?_⟩
  rintro d ⟨last, hlast, htemporary⟩
  exact hp.not_named hnames (d := d) ⟨last, hp.location_eq hsame d ▸ hlast, .inl htemporary⟩

/-- There is a file at the place of a path. -/
def Disk.HasFile (d : Disk) (p : Path) : Prop := ∃ content, d.kind? (d.location p) = some (.file content)

theorem IsRunPath.isFile_iff {p : Path} (h : IsRunPath p) {d : Disk} : d.isFile p = true ↔ d.HasFile p := by
  rw [Disk.isFile_iff, Disk.HasFile]
  simp only [h.read?]

/-- A file to run stays a file while modules are made. -/
theorem IsRunPath.hasFile_of_touches {p : Path} (h : IsRunPath p) {touched : String → Prop} {d d' : Disk}
    (htouches : Disk.Touches touched IsTemporaryName d d') (hfile : d.HasFile p) : d'.HasFile p := by
  obtain ⟨content, hcontent⟩ := hfile
  rw [Disk.HasFile, Disk.location_of_workingDirectory_eq htouches.workingDirectory]
  exact htouches.file _ _ hcontent (h.named d)

/-! ## The files of a batch -/

/-- A session with its log, between the testcases of a batch. -/
structure Resting (root : Path) (settings : Settings) (sent : Path → Option Path → Prop)
    (c : Chronicle) : Prop where
  tracked : Tracked root settings c
  logged : Logged settings (.fixed root) sent c

/-- From one such session to another: the modules are preserved, and what was added to the files to run is a
file or an old module. -/
structure Furthers (root : Path) (settings : Settings) (sent : Path → Option Path → Prop)
    (c c' : Chronicle) : Prop extends Preserves c c' where
  resting : Resting root settings sent c'
  runSet : ∀ q ∈ c'.session.runSet, q ∈ c.session.runSet ∨
    IsRunPath q ∧ (c'.session.disk.HasFile q ∨ ∃ r ∈ c.log, r.output.same q)

section Furthers

variable {root : Path} {settings : Settings} {sent : Path → Option Path → Prop} {c c' c'' : Chronicle}

theorem Furthers.refl (h : Resting root settings sent c) : Furthers root settings sent c c :=
  ⟨.of_disk_eq rfl, h, fun _ => .inl⟩

theorem Furthers.of_onward (h : Onward (Tracked root settings) Preserves c c')
    (hlogged : Logged settings (.fixed root) sent c') : Furthers root settings sent c c' where
  toPreserves := h.related
  resting := ⟨h.invariant, hlogged⟩
  runSet _ hq := .inl (h.runSet ▸ hq)

/-- A module holds its text, so that there is a file at every path of it. -/
theorem Resting.hasFile_of_holds (h : Resting root settings sent c)
    {r : Record} (hr : r ∈ c.log) {q : Path} (hsame : r.output.same q) {content : ByteArray}
    (hholds : c.session.disk.Holds r content) : c.session.disk.HasFile q := by
  refine ⟨content, ?_⟩
  rw [(h.tracked.placed r hr).location_eq hsame]
  exact hholds

theorem Furthers.trans (h : Furthers root settings sent c c') (h' : Furthers root settings sent c' c'') :
    Furthers root settings sent c c'' := by
  have hpreserves := h.toPreserves.trans h'.toPreserves
  refine ⟨hpreserves, h'.resting, fun q hq => ?_⟩
  rcases h'.runSet q hq with hq | ⟨hrun, hfile | ⟨r, hr, hsame⟩⟩
  · rcases h.runSet q hq with hq | ⟨hrun, hfile | hmodule⟩
    · exact .inl hq
    · exact .inr ⟨hrun, .inl (hrun.hasFile_of_touches h'.disk hfile)⟩
    · exact .inr ⟨hrun, .inr hmodule⟩
  · exact .inr ⟨hrun, .inl hfile⟩
  -- a module that was old in between may be new now
  · have hmem := h'.log.subset hr
    rcases hpreserves.mem_or_holds hmem with hold | hholds
    · exact .inr ⟨hrun, .inr ⟨r, hold, hsame⟩⟩
    · exact .inr ⟨hrun, .inl (h'.resting.hasFile_of_holds hmem hsame hholds)⟩

theorem Session.mem_or_eq_of_mem_addToRun {s : Session} {p q : Path} (h : q ∈ (s.addToRun p).runSet) :
    q ∈ s.runSet ∨ q = p := by
  unfold addToRun at h
  split at h
  · exact .inl h
  · rwa [List.mem_append, List.mem_singleton] at h

/-- A file is added to those to run. -/
theorem Furthers.addToRun {t : Session} {log : List Record} {q : Path}
    (h : Furthers root settings sent c ⟨t, log⟩) (hrun : IsRunPath q)
    (hfile : t.disk.HasFile q ∨ ∃ r ∈ c.log, r.output.same q) :
    Furthers root settings sent c ⟨t.addToRun q, log⟩ := by
  have hmem : ∀ p ∈ (t.addToRun q).runSet, p ∈ t.runSet ∨ p = q :=
    fun p => Session.mem_or_eq_of_mem_addToRun
  obtain ⟨runSet, hrunSet⟩ := t.exists_addToRun q
  rw [hrunSet] at hmem ⊢
  obtain ⟨htracked, hlogged⟩ := h.resting
  refine ⟨⟨h.disk, h.held, h.added⟩,
    ⟨⟨htracked.placed, htracked.mirrors, htracked.ordered, htracked.locator, htracked.settings⟩,
      ⟨hlogged.origins, hlogged.made, hlogged.settings, hlogged.locator⟩⟩, ?_⟩
  intro p hp
  rcases hmem p hp with hp | rfl
  · exact h.runSet p hp
  · exact .inr ⟨hrun, hfile⟩

section Batch

variable (hroot : Naming.IsBelowTop root) (hnames : settings.NamesApart) {outputDirectory : Option Path}
  (hdirectory : Naming.LeadsDown outputDirectory)
  (hbeside : ∀ p, sent p none) (hsent : ∀ p, sent p outputDirectory)

include hroot hnames hdirectory hbeside hsent

/-- The module of a document is made, or fails to be made. -/
theorem Observed.furthers_testcase (h : Resting root settings sent c) (raw : Value) {source : Path}
    (hplain : source.IsPlain) :
    Ensures (testcase raw source outputDirectory).recorded c
      (fun q c' => Furthers root settings sent c c' ∧ IsRunPath q ∧
        (c'.session.disk.HasFile q ∨ ∃ r ∈ c.log, r.output.same q))
      (Furthers root settings sent c) := by
  have hretains := retains_testcase hroot hnames h.tracked raw hplain hdirectory
  have hlogged := ((stepwise_logged hbeside).tracks_testcase h.logged raw outputDirectory
    ⟨Path.normalize_normalize _, fun _ _ _ => Path.isPlain_normalize hplain, hsent source.normalize⟩).ensures
  refine (hretains.and hlogged).mono ?_ fun c' h' => .of_onward h'.1 h'.2.invariant
  rintro q c' ⟨⟨hretains, harrives⟩, hlogged, -⟩
  have hfurthers := Furthers.of_onward hretains hlogged.invariant
  have hgenerated := harrives.generated
  obtain ⟨made, hmade, -⟩ := harrives.has
  rw [h.tracked.settings] at hgenerated
  obtain ⟨r, hr, -, hsame⟩ := hlogged.invariant.exists_of_made? hmade
  obtain ⟨stem, hend⟩ := hgenerated.endsIn hnames.documents.suffix.1
    hnames.documents.suffix.exists_ne_dot
  have hrun := (hretains.invariant.placed r hr).isRunPath hnames hsame hend
  refine ⟨hfurthers, hrun, ?_⟩
  rcases hretains.related.mem_or_holds hr with hold | hholds
  · exact .inr ⟨r, hold, hsame⟩
  · exact .inl (hfurthers.resting.hasFile_of_holds hr hsame hholds)

/-- What the steps of a batch do, while its arguments are absolute paths in normal form. -/
theorem Batch.carries_furthers (hlisted : settings.RunsNoTemporary) :
    Carries outputDirectory (fun p => p.IsPlain ∧ p.normalize = p ∧ p.isAbsolute = true) fun s t =>
      ∀ log, Resting root settings sent ⟨s, log⟩ →
        ∃ log', Furthers root settings sent ⟨s, log⟩ ⟨t, log'⟩ where
  plain h := h.1
  refl s log h := ⟨log, .refl h⟩
  trans h h' log hlog := by
    obtain ⟨log', hfirst⟩ := h log hlog
    obtain ⟨log'', hsecond⟩ := h' log' hfirst.resting
    exact ⟨log'', hfirst.trans hsecond⟩
  make s content p hplain := by
    have hends := fun log (hlog : Resting root settings sent ⟨s, log⟩) =>
      Observed.ends_of_recorded
        (Observed.furthers_testcase hroot hnames hdirectory hbeside hsent hlog content hplain)
    dsimp only at hends
    rw [Observed.testcase_fst] at hends
    cases hresult : Make.testcase content p outputDirectory s with
    | ok q t =>
      intro log hlog
      have hmade := hends log hlog
      rw [hresult] at hmade
      obtain ⟨log', hfurthers, hrun, hfile⟩ := hmade
      exact ⟨log', hfurthers.addToRun hrun hfile⟩
    | error e t =>
      intro log hlog
      have hfailed := hends log hlog
      rw [hresult] at hfailed
      exact hfailed
  listed {s t p found q} hp hfound hq hst hgenerated log hlog := by
    obtain ⟨log', hfurthers⟩ := hst log hlog
    obtain ⟨-, hnormal, habsolute⟩ := hp
    -- what is listed is a file
    have hlist : q.normalize = q ∧ q.isAbsolute = true ∧ s.disk.isFile q = true := by
      unfold filesOf? at hfound
      split at hfound
      · cases hfound
        exact Disk.isFile_of_mem_filesBelow hlog.tracked.ordered hnormal habsolute
          (List.mem_of_mem_filter hq)
      · split at hfound
        · next hfile =>
          cases hfound
          rw [List.mem_singleton.1 hq]
          exact ⟨hnormal, habsolute, hfile⟩
        · cases hfound
    rw [show t.settings = settings from hfurthers.resting.tracked.settings] at hgenerated
    have hrun := isRunPath_of_isGenerated hlisted hlist.1 hlist.2.1 hgenerated
    exact ⟨log', hfurthers.addToRun hrun
      (.inl (hrun.hasFile_of_touches hfurthers.disk (hrun.isFile_iff.1 hlist.2.2)))⟩

end Batch

end Furthers

/-! ## Batches of a session -/

/-- A batch without a formatter: the texts of its inputs, and that of its output directory. -/
structure Job where
  inputs : List String
  outputDirectory : Option String

namespace Job

/-- The batch is run. -/
def make (job : Job) : Make Report :=
  Batch.run (job.inputs.map .ofString) (job.outputDirectory.map .ofString) none

/-- The output directory, from the working directory. -/
def directory? (job : Job) (d : Disk) : Option Path :=
  job.outputDirectory.map fun text => Batch.absolute d (.ofString text)

/-- The places that the batch removes, with all that is below them. -/
def wiped (job : Job) (d : Disk) : List (List String) :=
  Batch.wiped (job.inputs.map .ofString) (job.outputDirectory.map .ofString) d

end Job

namespace Session

/-- The session after some batches, those that failed among them. -/
def afterJobs (s : Session) (jobs : List Job) : Session :=
  jobs.foldl (fun s job => stateAfter job.make s) s

/-- The paths of the modules made. -/
def modules (s : Session) : List Path := s.made.map Prod.fst

/-- The paths of the modules made, and the files to run. -/
def files (s : Session) : List Path := s.modules ++ s.runSet

end Session

/-- A batch removes a file that the session knows, with its output directory or with what it removes of it. -/
structure Drops (known : Session → List Path) (job : Job) (s : Session) (p : Path) : Prop where
  known : ∃ k ∈ known s, k.same p
  wiped : ∃ place ∈ job.wiped s.disk, place <+: s.disk.location p

/-- A file was lost by one of some batches in a session. -/
def Lost (known : Session → List Path) (s : Session) (jobs : List Job) (p : Path) : Prop :=
  ∃ done job left, jobs = done ++ job :: left ∧ Drops known job (s.afterJobs done) p

section Lost

variable {known : Session → List Path} {s : Session} {jobs : List Job} {job : Job} {p q : Path}

theorem Session.afterJobs_concat (s : Session) (jobs : List Job) (job : Job) :
    s.afterJobs (jobs ++ [job]) = stateAfter job.make (s.afterJobs jobs) := by
  rw [afterJobs, List.foldl_append]
  rfl

/-- What is lost is lost by the batches before the last one, or by the last one. -/
theorem lost_concat_iff :
    Lost known s (jobs ++ [job]) p ↔ Lost known s jobs p ∨ Drops known job (s.afterJobs jobs) p := by
  constructor
  · rintro ⟨done, other, left, hjobs, hdrops⟩
    rcases List.eq_nil_or_concat' left with rfl | ⟨front, last, rfl⟩
    · obtain ⟨rfl, hjob⟩ := List.append_inj' hjobs rfl
      cases hjob
      exact .inr hdrops
    · rw [← List.cons_append, ← List.append_assoc] at hjobs
      exact .inl ⟨done, other, front, (List.append_inj' hjobs rfl).1, hdrops⟩
  · rintro (⟨done, other, left, rfl, hdrops⟩ | hdrops)
    · exact ⟨done, other, left ++ [job], by simp, hdrops⟩
    · exact ⟨jobs, job, [], rfl, hdrops⟩

/-- A module that was lost is a file that was lost, by every path of it. -/
theorem Lost.files_of_same (h : Lost Session.modules s jobs p) (hsame : p.same q)
    (hlocation : ∀ d : Disk, d.location q = d.location p) : Lost Session.files s jobs q := by
  obtain ⟨done, job, left, hjobs, ⟨k, hk, hkp⟩, place, hplace, hbelow⟩ := h
  refine ⟨done, job, left, hjobs, ⟨k, List.mem_append_left _ hk, ?_⟩, place, hplace, ?_⟩
  · rw [Path.same_iff] at hkp hsame ⊢
    exact hkp.trans hsame
  · rwa [hlocation]

end Lost

/-! ## What is true after some batches -/

/-- After some batches: every module of the log holds its text unless it was lost, what was lost is in the
log, and the files to run are there unless they were lost. -/
structure Truthful (root : Path) (settings : Settings) (sent : Path → Option Path → Prop) (s : Session)
    (jobs : List Job) (c : Chronicle) : Prop where
  resting : Resting root settings sent c
  workingDirectory : c.session.disk.workingDirectory = s.disk.workingDirectory
  held : ∀ r ∈ c.log, ∀ content, c.session.disk.Holds r content ↔
    content = r.script.render.toUTF8 ∧ ¬ Lost Session.modules s jobs r.output
  known : ∀ p, Lost Session.modules s jobs p → ∃ r ∈ c.log, r.output.same p
  run : ∀ q ∈ c.session.runSet, IsRunPath q ∧
    (¬ Lost Session.files s jobs q → c.session.disk.HasFile q)

section Truthful

variable {root : Path} {settings : Settings} {sent : Path → Option Path → Prop} {s : Session}
  {jobs : List Job} {job : Job} {d : Disk} {log log' : List Record}

/-- A session has the modules of its log. -/
theorem Tracked.exists_of_mem_modules {c : Chronicle} (h : Tracked root settings c) {k : Path}
    (hk : k ∈ c.session.modules) : ∃ r ∈ c.log, r.output = k := by
  rw [Session.modules, h.mirrors, List.map_map, List.mem_map] at hk
  exact hk

/-- One more batch: a directory is emptied, and then modules are made. -/
theorem Truthful.step (h : Truthful root settings sent s jobs ⟨s.afterJobs jobs, log⟩)
    (hemptied : (s.afterJobs jobs).disk.Emptied (job.wiped (s.afterJobs jobs).disk) d)
    (hfurthers : Furthers root settings sent ⟨{ s.afterJobs jobs with disk := d }, log⟩
      ⟨s.afterJobs (jobs ++ [job]), log'⟩) :
    Truthful root settings sent s (jobs ++ [job]) ⟨s.afterJobs (jobs ++ [job]), log'⟩ := by
  obtain ⟨new, hnew, hadded⟩ := hfurthers.added
  dsimp only at hnew hadded
  have hknown : ∀ p, Lost Session.modules s (jobs ++ [job]) p → ∃ r ∈ log, r.output.same p := by
    intro p hp
    rcases lost_concat_iff.1 hp with hp | ⟨⟨k, hk, hsame⟩, -⟩
    · exact h.known p hp
    · obtain ⟨r, hr, rfl⟩ := h.resting.tracked.exists_of_mem_modules hk
      exact ⟨r, hr, hsame⟩
  have hlocation : ∀ p, d.location p = (s.afterJobs jobs).disk.location p :=
    Disk.location_of_workingDirectory_eq hemptied.workingDirectory
  have hheld : ∀ r ∈ log', ∀ content, (s.afterJobs (jobs ++ [job])).disk.Holds r content ↔
      content = r.script.render.toUTF8 ∧ ¬ Lost Session.modules s (jobs ++ [job]) r.output := by
    intro r hr content
    rw [hnew, List.mem_append] at hr
    rcases hr with hr | hr
    · have hdrops : Drops Session.modules job (s.afterJobs jobs) r.output ↔
          ∃ place ∈ job.wiped (s.afterJobs jobs).disk,
            place <+: (s.afterJobs jobs).disk.location r.output := by
        refine ⟨Drops.wiped, fun hwiped => ⟨⟨r.output, ?_, Path.same_iff.2 rfl⟩, hwiped⟩⟩
        rw [Session.modules, h.resting.tracked.mirrors, List.map_map]
        exact List.mem_map_of_mem hr
      have hold := h.held r hr content
      rw [hfurthers.held r hr content, lost_concat_iff, hdrops]
      rw [Disk.Holds] at hold ⊢
      rw [hlocation, hemptied.file, hold, not_or, and_assoc]
      simp only [not_exists, not_and]
    · have hholds := (hadded r hr).1
      have hnot : ¬ Lost Session.modules s (jobs ++ [job]) r.output := by
        intro hlost
        obtain ⟨q, hq, hsame⟩ := hknown _ hlost
        exact (hadded r hr).2 q hq hsame
      rw [Disk.Holds] at hholds ⊢
      rw [hholds, and_iff_left hnot, Option.some.injEq, Kind.file.injEq, eq_comm]
  refine ⟨hfurthers.resting, ?_, hheld, fun p hp => ?_, fun q hq => ?_⟩
  · exact hfurthers.disk.workingDirectory.trans
      (hemptied.workingDirectory.trans h.workingDirectory)
  · obtain ⟨r, hr, hsame⟩ := hknown p hp
    exact ⟨r, hnew ▸ List.mem_append_left _ hr, hsame⟩
  · rcases hfurthers.runSet q hq with hold | ⟨hrun, hfile⟩
    · obtain ⟨hrun, hfile⟩ := h.run q hold
      refine ⟨hrun, fun hnot => hrun.hasFile_of_touches hfurthers.disk ?_⟩
      rw [lost_concat_iff, not_or] at hnot
      obtain ⟨content, hcontent⟩ := hfile hnot.1
      refine ⟨content, ?_⟩
      show d.kind? (d.location q) = _
      rw [hlocation, hemptied.file]
      refine ⟨hcontent, fun place hplace hbelow => hnot.2 ⟨⟨q, ?_, ?_⟩, place, hplace, hbelow⟩⟩
      · exact List.mem_append_right _ hold
      · exact Path.same_iff.2 rfl
    · refine ⟨hrun, fun hnot => hfile.elim id ?_⟩
      rintro ⟨r, hr, hsame⟩
      have hr' : r ∈ log' := hnew ▸ List.mem_append_left _ hr
      refine hfurthers.resting.hasFile_of_holds hr' hsame ((hheld r hr' _).2 ⟨rfl, fun hlost => ?_⟩)
      exact hnot (hlost.files_of_same hsame
        ((hfurthers.resting.tracked.placed r hr').location_eq hsame))

/-! ## Runs of batches -/

/-- Preparing an output directory keeps the disk in order. -/
theorem Batch.ordered_prepare {t : Session} (h : t.disk.IsOrdered) (inputs : List Path) {directory : Path}
    (hplain : directory.IsPlain) :
    Ensures (prepare inputs directory) t (fun _ u => u.disk.IsOrdered) fun u => u.disk.IsOrdered := by
  have hmake : ∀ u : Session, u.disk.IsOrdered →
      Ensures (Make.onDisk (Disk.createDirectories directory)) u (fun _ v => v.disk.IsOrdered)
        fun v => v.disk.IsOrdered := by
    intro u hu
    refine (Make.ensures_onDisk (Disk.ordered_createDirectories hplain hu)).mono ?_ ?_
    · rintro _ _ ⟨d, rfl, hd⟩
      exact hd
    · rintro _ ⟨d, rfl, hd⟩
      exact hd
  unfold prepare
  split
  · exact .throw h
  · refine .bind .get ?_
    rintro _ _ ⟨rfl, rfl⟩
    split
    · refine .bind ((Make.ensures_onDisk (Disk.ordered_removeTree h directory)).mono
        (fun _ _ h' => h') ?_) ?_
      · rintro _ ⟨d, rfl, hd⟩
        exact hd
      · rintro _ _ ⟨d, rfl, hd⟩
        exact hmake _ hd
    · exact hmake _ h

theorem Batch.isAbsolute_absolute (d : Disk) (p : Path) : (absolute d p).isAbsolute = true := by
  have hjoin : (d.currentPath.join p).isAbsolute = true := by
    have hne : d.currentPath ≠ Path.empty := by simp [Disk.currentPath, Path.empty]
    rw [Path.join, if_neg hne]
    split_ifs with habsolute
    · exact habsolute
    all_goals rfl
  rw [absolute, Path.normalize, if_pos hjoin]
  rfl

section Jobs

variable (hroot : Naming.IsBelowTop root) (hnames : settings.NamesApart)
  (hlisted : settings.RunsNoTemporary)

include hroot hnames hlisted

/-- A batch empties its output directory and makes modules, however it ends. -/
theorem Job.ensures_make {c : Chronicle} (h : Resting root settings sent c)
    (hworking : c.session.disk.currentPath.IsPlain)
    (hdown : ∀ directory ∈ job.directory? c.session.disk, ∃ names, directory.GoesDown names)
    (hbeside : ∀ p, sent p none) (hsent : ∀ p, sent p (job.directory? c.session.disk)) :
    Ensures job.make c.session
      (fun _ t => ∃ d log, c.session.disk.Emptied (job.wiped c.session.disk) d ∧
        Furthers root settings sent ⟨{ c.session with disk := d }, c.log⟩ ⟨t, log⟩)
      fun t => ∃ d log, c.session.disk.Emptied (job.wiped c.session.disk) d ∧
        Furthers root settings sent ⟨{ c.session with disk := d }, c.log⟩ ⟨t, log⟩ := by
  let Q (t : Session) : Prop := ∃ d log, c.session.disk.Emptied (job.wiped c.session.disk) d ∧
    Furthers root settings sent ⟨{ c.session with disk := d }, c.log⟩ ⟨t, log⟩
  change Ensures job.make c.session (fun _ => Q) Q
  by_cases hinputs : job.inputs = []
  · have hwiped : job.wiped c.session.disk = [] := by
      rw [wiped, hinputs]
      exact Batch.wiped_nil _ _
    have hmake : job.make c.session = .ok {} c.session := by rw [make, hinputs]; rfl
    refine .of_eq_ok hmake ⟨c.session.disk, c.log, ?_, ?_⟩
    · rw [hwiped]
      exact .refl _
    · exact .refl h
  have hne : job.inputs.map Path.ofString ≠ [] := by simpa using hinputs
  have hplain : ∀ text, (Batch.absolute c.session.disk (.ofString text)).IsPlain :=
    fun text => Batch.isPlain_absolute hworking (Path.isPlain_ofString text)
  have hdirectory : Naming.LeadsDown (job.directory? c.session.disk) := by
    intro directory hmem
    obtain ⟨text, -, rfl⟩ := Option.mem_map.1 hmem
    exact ⟨hplain text, hdown _ hmem⟩
  have hgiven : (job.outputDirectory.map Path.ofString).map (Batch.absolute c.session.disk)
      = job.directory? c.session.disk := by
    rw [Option.map_map]
    rfl
  have hrested : ∀ d, d.IsOrdered →
      Resting root settings sent ⟨{ c.session with disk := d }, c.log⟩ := fun d hd =>
    ⟨⟨h.tracked.placed, h.tracked.mirrors, hd, h.tracked.locator, h.tracked.settings⟩,
      ⟨h.logged.origins, h.logged.made, h.logged.settings, h.logged.locator⟩⟩
  -- the output directory is emptied
  let P (t : Session) : Prop := Batch.Prepared (job.wiped c.session.disk) c.session t ∧ t.disk.IsOrdered
  have hordered : Ensures ((job.directory? c.session.disk).forM
      (Batch.prepare ((job.inputs.map Path.ofString).map (Batch.absolute c.session.disk)))) c.session
      (fun _ t => t.disk.IsOrdered) fun t => t.disk.IsOrdered := by
    cases hgiven : job.directory? c.session.disk with
    | none => exact .pure h.tracked.ordered
    | some directory => exact Batch.ordered_prepare h.tracked.ordered _ (hdirectory directory hgiven).1
  have hprepare := (Batch.ensures_prepareAll hne (job.outputDirectory.map Path.ofString) c.session)
  rw [hgiven] at hprepare
  have hprepared : ∀ t, P t → Q t := by
    rintro _ ⟨⟨d, rfl, hd⟩, hordered⟩
    exact ⟨d, c.log, hd, .refl (hrested d hordered)⟩
  -- then the arguments are gone through
  refine Batch.ensures_run (P := P) (G := fun _ => Q) hne ?_ ?_ ?_
  · rw [hgiven]
    exact (hprepare.and hordered).mono (fun _ _ ht => ht) hprepared
  · rintro _ ⟨⟨d, rfl, hd⟩, hordered⟩
    rw [hgiven]
    refine ((Batch.carries_furthers hroot hnames hdirectory hbeside hsent hlisted).gathered ?_ _).mono ?_ ?_
    · intro p hp
      obtain ⟨_, hq, rfl⟩ := List.mem_map.1 hp
      obtain ⟨text, -, rfl⟩ := List.mem_map.1 hq
      exact ⟨hplain text, Path.normalize_normalize _, Batch.isAbsolute_absolute _ _⟩
    · intro _ t ht
      obtain ⟨log, hfurthers⟩ := ht c.log (hrested d hordered)
      exact ⟨d, log, hd, hfurthers⟩
    · intro t ht
      obtain ⟨log, hfurthers⟩ := ht c.log (hrested d hordered)
      exact ⟨d, log, hd, hfurthers⟩
  · exact fun _ _ ht => .pure ht

end Jobs

theorem Job.directory?_of_workingDirectory_eq {d' : Disk} (h : d'.workingDirectory = d.workingDirectory)
    (job : Job) : job.directory? d' = job.directory? d := by
  unfold directory? Batch.absolute Disk.currentPath
  rw [h]

theorem not_lost_nil {known : Session → List Path} {p : Path} : ¬ Lost known s [] p := by
  rintro ⟨done, job, left, hjobs, -⟩
  simp at hjobs

/-- After any batches in a session without modules, the modules hold their texts and the files to run are
there, but for those that were lost. -/
theorem truthful_afterJobs (hroot : Naming.IsBelowTop root) (hnames : settings.NamesApart)
    (hlisted : settings.RunsNoTemporary) (hs : Truthful root settings sent s [] ⟨s, []⟩)
    (hworking : s.disk.currentPath.IsPlain) (hbeside : ∀ p, sent p none)
    (hjobs : ∀ job ∈ jobs, (∀ p, sent p (job.directory? s.disk)) ∧
      ∀ directory ∈ job.directory? s.disk, ∃ names, directory.GoesDown names) :
    ∃ log, Truthful root settings sent s jobs ⟨s.afterJobs jobs, log⟩ := by
  induction jobs using List.reverseRecOn with
  | nil => exact ⟨[], hs⟩
  | append_singleton jobs job ih =>
    obtain ⟨log, h⟩ := ih fun other hother => hjobs other (List.mem_append_left _ hother)
    obtain ⟨hsent, hdown⟩ := hjobs job (by simp)
    have hworking' : (s.afterJobs jobs).disk.currentPath.IsPlain := by
      rw [Disk.currentPath, h.workingDirectory]
      exact hworking
    rw [← job.directory?_of_workingDirectory_eq h.workingDirectory] at hsent hdown
    have hmake := Job.ensures_make hroot hnames hlisted h.resting hworking' hdown hbeside hsent
    obtain ⟨d, log', hemptied, hfurthers⟩ := hmake.stateAfter
    dsimp only at hemptied hfurthers
    rw [← Session.afterJobs_concat] at hfurthers
    exact ⟨log', h.step hemptied hfurthers⟩

end Truthful

/-! ## When a report is true -/

/-- A batch reports what the session has, unless it has no inputs. -/
theorem Job.report_of_make {job : Job} {s t : Session} {report : Report}
    (h : job.make s = .ok report t) :
    report.generated = t.modules ∧ report.runSet = t.runSet ∨
      report.generated = [] ∧ report.runSet = [] := by
  by_cases hinputs : job.inputs = []
  · have hmake : job.make s = .ok {} s := by rw [make, hinputs]; rfl
    cases h.symm.trans hmake
    exact .inr ⟨rfl, rfl⟩
  · obtain ⟨_, _, -, -, rfl⟩ := (Batch.run_eq_ok_iff (by simpa using hinputs)).1 h
    exact .inl ⟨rfl, rfl⟩

/-- A module goes next to its source, or to the output directory of one of some batches. -/
def SentBy (jobs : List Job) (d : Disk) (_ : Path) (outputDirectory : Option Path) : Prop :=
  outputDirectory = none ∨ ∃ job ∈ jobs, job.directory? d = outputDirectory

/-- **When a report is true.**  Batches are run in a session of a project with a fixed root below the top,
with any inputs and with any output directories that go down from the top; some may fail.  If the last one
succeeds, then

* it reports the modules of a log in which every record has an origin, and each of these modules holds its
  text, unless it was lost: then there is no such file;
* every file to run that it reports is a file, unless it was lost.

A file is lost when a batch removes it with its output directory, or with what it removes of that directory
before it fails, and the session knew the file before the batch. -/
theorem generated_true_unless_lost (settings : Settings) (hnames : settings.NamesApart)
    (hlisted : settings.RunsNoTemporary) (root : String)
    (hroot : ∃ first names, (Path.ofString root).GoesDown (first :: names)) (disk : Disk)
    (hordered : disk.IsOrdered) (hworking : disk.currentPath.IsPlain) (jobs : List Job) (job : Job)
    (hdown : ∀ other ∈ jobs ++ [job], ∀ directory ∈ other.directory? disk,
      ∃ names, directory.GoesDown names)
    (report : Report) (t : Session)
    (hmake : job.make ((Session.fresh settings root disk).afterJobs jobs) = .ok report t) :
    let s := Session.fresh settings root disk
    (∃ log, report.generated = log.map Record.output ∧ ∀ r ∈ log,
      Origin settings (.fixed (.ofString root)) (SentBy (jobs ++ [job]) disk) log r ∧
      (¬ Lost Session.modules s (jobs ++ [job]) r.output →
        t.disk.read? r.output = some r.script.render.toUTF8) ∧
      (Lost Session.modules s (jobs ++ [job]) r.output → t.disk.isFile r.output = false)) ∧
    ∀ q ∈ report.runSet, ¬ Lost Session.files s (jobs ++ [job]) q → t.disk.isFile q = true := by
  intro s
  have hbelow : Naming.IsBelowTop (.ofString root) := ⟨Path.isPlain_ofString root, hroot⟩
  have hbeside : ∀ p, SentBy (jobs ++ [job]) disk p none := fun _ => .inl rfl
  have hsent : ∀ other ∈ jobs ++ [job], (∀ p, SentBy (jobs ++ [job]) disk p (other.directory? disk)) ∧
      ∀ directory ∈ other.directory? disk, ∃ names, directory.GoesDown names :=
    fun other hother => ⟨fun _ => .inr ⟨other, hother, rfl⟩, hdown other hother⟩
  have hfresh : Truthful (.ofString root) settings (SentBy (jobs ++ [job]) disk) s [] ⟨s, []⟩ :=
    ⟨⟨⟨by simp, rfl, hordered, rfl, rfl⟩, ⟨by simp, by simp [s, Session.fresh], rfl, rfl⟩⟩, rfl, by simp,
      fun _ hlost => absurd hlost not_lost_nil, by simp [s, Session.fresh]⟩
  obtain ⟨log, htrue⟩ := truthful_afterJobs hbelow hnames hlisted hfresh hworking hbeside hsent
  obtain rfl : s.afterJobs (jobs ++ [job]) = t := by
    rw [Session.afterJobs_concat, stateAfter, hmake]
  rcases Job.report_of_make hmake with ⟨hgenerated, hrunSet⟩ | ⟨hgenerated, hrunSet⟩
  · rw [hgenerated, hrunSet]
    refine ⟨⟨log, ?_, fun r hr => ⟨htrue.resting.logged.origins r hr, ?_⟩⟩, fun q hq hnot => ?_⟩
    · rw [Session.modules, htrue.resting.tracked.mirrors, List.map_map]
      rfl
    · have hheld := htrue.held r hr
      obtain ⟨stem, hend⟩ := (htrue.resting.tracked.placed r hr).endsIn
      have hread := ((htrue.resting.tracked.placed r hr).isRunPath hnames (Path.same_iff.2 rfl) hend).read?
      refine ⟨fun hnot => (hread _ _).2 ((hheld _).2 ⟨rfl, hnot⟩), fun hlost => ?_⟩
      rw [← Bool.not_eq_true, Disk.isFile_iff]
      rintro ⟨content, hcontent⟩
      exact ((hheld content).1 ((hread _ _).1 hcontent)).2 hlost
    · obtain ⟨hrun, hfile⟩ := htrue.run q hq
      exact hrun.isFile_iff.2 (hfile hnot)
  · rw [hgenerated, hrunSet]
    exact ⟨⟨[], rfl, by simp⟩, by simp⟩

/-- A testcase is made into one directory and then into another one: nothing is lost, and both modules that
are reported are there. -/
theorem generated_true_unless_lost_otherDirectory :
    let s := Session.fresh {} "/p" oneTestcase
    let first : Job := ⟨["/p/b.json"], some "/p/out"⟩
    let second : Job := ⟨["/p/b.json"], some "/p/other"⟩
    oneTestcase.IsOrdered ∧ oneTestcase.currentPath.IsPlain ∧ (Path.ofString "/p").GoesDown ["p"] ∧
      (∀ p, ¬ Lost Session.files s ([first] ++ [second]) p) ∧
      ∃ report t, second.make (s.afterJobs [first]) = .ok report t ∧
        report.generated.map Path.text = ["/p/out/b_test.py", "/p/other/b_test.py"] ∧
        (∀ p ∈ report.generated, t.disk.isFile p = true) ∧ ∀ q ∈ report.runSet, t.disk.isFile q = true := by
  intro s first second
  have hordered : oneTestcase.IsOrdered :=
    ⟨⟨⟨by decide, by decide⟩, by decide⟩, by simp,
      ⟨⟨⟨by decide, by decide⟩, by decide⟩, by simp, trivial, trivial⟩, trivial⟩
  have hworking : oneTestcase.currentPath.IsPlain := by
    rw [Path.IsPlain]
    decide
  have hroot : (Path.ofString "/p").GoesDown ["p"] := by
    rw [Path.GoesDown]
    decide
  have hdown : ∀ other ∈ [first] ++ [second], ∀ directory ∈ other.directory? oneTestcase,
      ∃ names, directory.GoesDown names := by
    intro other hother directory hdirectory
    rcases List.mem_append.1 hother with hother | hother
    all_goals
      rw [List.mem_singleton.1 hother] at hdirectory
      cases hdirectory
    · exact ⟨["p", "out"], by rw [Path.GoesDown]; decide +kernel⟩
    · exact ⟨["p", "other"], by rw [Path.GoesDown]; decide +kernel⟩
  have hkept : ∀ p, ¬ Lost Session.files s ([first] ++ [second]) p := by
    intro p hlost
    rcases lost_concat_iff.1 hlost with hlost | hdrops
    · replace hlost : Lost Session.files s ([] ++ [first]) p := hlost
      rcases lost_concat_iff.1 hlost with hlost | hdrops
      · exact not_lost_nil hlost
      · obtain ⟨k, hk, -⟩ := hdrops.known
        cases hk
    · obtain ⟨place, hplace, -⟩ := hdrops.wiped
      have hwiped : second.wiped (s.afterJobs [first]).disk = [] := by decide +kernel
      rw [hwiped] at hplace
      cases hplace
  have hrun : passes (fun report _ => decide (report.generated.map Path.text
      = ["/p/out/b_test.py", "/p/other/b_test.py"])) (second.make (s.afterJobs [first])) = true := by
    decide +kernel
  obtain ⟨report, t, hreport, hgenerated⟩ := exists_of_passes hrun
  obtain ⟨⟨log, hlog, htrue⟩, hfiles⟩ := generated_true_unless_lost {} Settings.namesApart_default
    Settings.runsNoTemporary_default "/p" ⟨"p", [], hroot⟩ oneTestcase hordered hworking [first] second
    hdown report t hreport
  refine ⟨hordered, hworking, hroot, hkept, report, t, hreport, of_decide_eq_true hgenerated, ?_,
    fun q hq => hfiles q hq (hkept q)⟩
  intro p hp
  rw [hlog, List.mem_map] at hp
  obtain ⟨r, hr, rfl⟩ := hp
  have hnot : ¬ Lost Session.modules s ([first] ++ [second]) r.output := fun hlost =>
    hkept r.output (hlost.files_of_same (Path.same_iff.2 rfl) fun _ => rfl)
  exact Disk.isFile_iff.2 ⟨_, (htrue r hr).2.1 hnot⟩

/-- A testcase is made into a directory twice: the second batch succeeds and reports the module, which is no
longer there. -/
theorem generated_lost_sameDirectory :
    let s := Session.fresh {} "/p" oneTestcase
    let job : Job := ⟨["/p/b.json"], some "/p/out"⟩
    ∃ report t, job.make (s.afterJobs [job]) = .ok report t ∧
      report.generated.map Path.text = ["/p/out/b_test.py"] ∧ report.runSet = report.generated ∧
      ∀ p ∈ report.generated, t.disk.isFile p = false := by
  intro s job
  have hrun : passes (fun report t => decide (report.generated.map Path.text = ["/p/out/b_test.py"] ∧
      report.runSet = report.generated ∧ ∀ p ∈ report.generated, t.disk.isFile p = false))
      (job.make (s.afterJobs [job])) = true := by decide +kernel
  obtain ⟨report, t, hreport, hlost⟩ := exists_of_passes hrun
  exact ⟨report, t, hreport, of_decide_eq_true hlost⟩

end TestScribe
