/-
# Exports of called testcases

A step that calls a testcase exports its own names and then those that the testcase exports.  The latter are not read
from the document of the testcase again: they were remembered when its module was made, maybe for another step, in
another order, or from a single request that was promoted to a testcase.  As long as documents stay as they are, what
is remembered of a module is what its document declares, and the module that a call finds is that of its document.

* `Session.Recalls` : what is remembered of every module is what its document declares;
* `Step.Resolved` : what becomes of a step that is resolved;
* `Observed.recalls_testcaseWithin` : a run remembers what documents declare, and has the module of its document;
* `Life` : the sessions of a life in which documents stay as they are;
* `called_exports_are_merged` : what becomes of the exports of steps whose references are resolved.
-/
import TestScribe.Proofs.Callees
import TestScribe.Proofs.ExportedNames
import TestScribe.Proofs.Nesting
import TestScribe.Proofs.Once

namespace TestScribe

/-! ## What a reference leads to -/

/-- What a step finds is its result. -/
theorem LooksUp.result {α : Type} {step : Make α} {s : Session} {P : α → Prop} (h : LooksUp step s P) :
    LooksUp step s fun a => ∃ t, step s = .ok a t := by
  obtain ⟨hends⟩ := h
  constructor
  cases hrun : step s with
  | ok a t =>
    rw [hrun] at hends
    exact ⟨hends.1, t, rfl⟩
  | error e t =>
    rw [hrun] at hends
    exact hends

namespace Make

variable {s : Session}

/-- A document is opened where the reference leads. -/
theorem exists_reference_of_opened {source : Path} {step : Step} {raw : String} {found : Value × Path}
    {t : Session} (h : opened source step raw s = .ok found t) :
    ∃ later, reference source raw s = .ok found.2 later := by
  obtain ⟨p, u, hreference, h⟩ := exists_of_bind_eq_ok h
  obtain ⟨d, v, -, h⟩ := exists_of_bind_eq_ok h
  obtain ⟨content, w, -, h⟩ := exists_of_bind_eq_ok h
  split at h
  · cases h
  · cases h
    exact ⟨u, hreference⟩

theorem looksUp_opened_reference (source : Path) (step : Step) (raw : String) :
    LooksUp (opened source step raw) s fun found => ∃ later, reference source raw s = .ok found.2 later := by
  refine (looksUp_opened source step raw).result.mono ?_
  rintro found ⟨t, hrun⟩
  exact exists_reference_of_opened hrun

end Make

/-! ## What is remembered of documents -/

/-- At a moment, what can be loaded is one of the documents. -/
def Moment.Shows (documents : Path → Option Value) (m : Moment) : Prop :=
  ∀ p v, p.normalize = p → Source.load m.session.disk p = .ok v → documents p = some v

/-- Every module was made from one of the documents, and its exports are remembered as the document declares
them. -/
def Session.Recalls (documents : Path → Option Value) (s : Session) : Prop :=
  ∀ entry ∈ s.made, entry.2.source.normalize = entry.2.source ∧
    ∃ raw, documents entry.2.source = some raw ∧ entry.2.exports = Legacy.declaredExports raw

/-- What becomes of a step that is resolved in the session `s`: a reference leads to one of the documents, with whose
exports those of the step are merged, and any other step stays as it is. -/
structure Step.Resolved (documents : Path → Option Value) (source : Path) (s : Session) (step step' : Step) :
    Prop where
  kept : ¬ step.Refers → step' = step
  merged : ∀ raw, step.action = .call (.path raw) → ∃ p later content,
    Make.reference source raw s = .ok p later ∧ documents p = some content ∧
      MergesExports step.exports (Legacy.declaredExports content) step'.exports

namespace Session.Recalls

variable {documents : Path → Option Value} {s t : Session}

theorem of_alike (h : s.Recalls documents) (halike : s.Alike t) : t.Recalls documents := by
  obtain ⟨roots, rfl⟩ := halike.roots
  exact h

/-- One more module is kept, from a document that declares its exports. -/
theorem keep (h : s.Recalls documents) {made : Made} {raw : Value} (hnormal : made.source.normalize = made.source)
    (hdocument : documents made.source = some raw) (hexports : made.exports = Legacy.declaredExports raw)
    (output : Path) : (s.keep output made).Recalls documents := by
  intro entry hentry
  rcases Made.mem_put hentry with hentry | ⟨-, hmade⟩
  · exact h entry hentry
  · rw [hmade]
    exact ⟨hnormal, raw, hdocument, hexports⟩

/-- A module of a document has the exports that the document declares. -/
theorem exports_eq (h : s.Recalls documents) {p output : Path} {content : Value} {made : Made}
    (hnormal : p.normalize = p) (hdocument : documents p = some content) (hhas : s.Has p output)
    (hmade : s.made? output = some made) : made.exports = Legacy.declaredExports content := by
  obtain ⟨_, hfound, hsame⟩ := hhas
  rw [hmade, Option.some_inj] at hfound
  subst hfound
  obtain ⟨q, hmem, -⟩ := Session.exists_mem_of_made? hmade
  obtain ⟨hnormal', raw, hraw, hexports⟩ := h _ hmem
  rw [Path.eq_of_same_of_normal hnormal' hnormal hsame, hdocument, Option.some_inj] at hraw
  rw [hexports, hraw]

end Session.Recalls

/-! ## Runs -/

/-- What a step with its moments comes to is the result of the step without them. -/
theorem Follows.runs {α : Type} {step : Observed α} {plain : Make α} (h : Follows False step plain)
    {U : Moment → Prop} {s : Session} :
    Runs U (fun _ => True) step s (fun a t => plain s = .ok a t) fun e t => plain s = .error e t := by
  refine ⟨fun _ _ _ => trivial, fun _ => ?_⟩
  have hresult : (step s).1 = plain s := (h s).resolve_right fun hshort => hshort.1
  rw [hresult]
  cases hrun : plain s with
  | ok a t | error e t => exact rfl

/-- What is claimed of the calls that are nested in a run. -/
def Delivers (documents : Path → Option Value) (nested : Value → Path → Observed Path) : Prop :=
  ∀ (content : Value) (p : Path) (s : Session), s.Recalls documents → p.normalize = p →
    documents p = some content →
    Runs (Moment.Shows documents) (fun m => m.session.Recalls documents) (nested content p) s
      (fun output t => t.Recalls documents ∧ t.Has p output) fun _ t => t.Recalls documents

namespace Observed

variable {documents : Path → Option Value} {depth : Nat} {s : Session}

/-- A step that looks something up makes nothing. -/
theorem recalls_lookup {α : Type} {step : Make α} {P : α → Prop} (hs : s.Recalls documents)
    (h : Moment.Shows documents ⟨s, depth, none, none⟩ → LooksUp step s P) :
    Runs (Moment.Shows documents) (fun m => m.session.Recalls documents) (ofMake depth step) s
      (fun a t => s.Alike t ∧ P a) fun _ t => t.Recalls documents :=
  (Runs.lookup (fun _ => hs) h).mono (fun _ _ h => h) fun _ _ h => hs.of_alike h.1

section Nested

variable {nested : Value → Path → Observed Path} (hnested : Delivers documents nested)

include hnested

/-- A call finds what its document declares. -/
theorem recalls_called (hs : s.Recalls documents) (source : Path) (step : Step) (raw : String) :
    Runs (Moment.Shows documents) (fun m => m.session.Recalls documents)
      (called depth nested source step raw) s
      (fun found t => t.Recalls documents ∧ ∃ p later content,
        Make.reference source raw s = .ok p later ∧ documents p = some content ∧
          found.2.exports = Legacy.declaredExports content)
      fun _ t => t.Recalls documents := by
  have hopened : Runs (Moment.Shows documents) (fun m => m.session.Recalls documents)
      (ofMake depth (Make.opened source step raw)) s
      (fun found t => s.Alike t ∧ found.2.normalize = found.2 ∧ documents found.2 = some found.1 ∧
        ∃ later, Make.reference source raw s = .ok found.2 later)
      fun _ t => t.Recalls documents := by
    refine recalls_lookup hs fun hshows => ?_
    refine ((Make.looksUp_opened source step raw).and (Make.looksUp_opened_reference source step raw)).mono ?_
    rintro ⟨content, p⟩ ⟨⟨hnormal, hload, -⟩, hreference⟩
    exact ⟨hnormal, hshows p content hnormal hload, hreference⟩
  unfold called
  refine .bind hopened ?_
  rintro ⟨content, p⟩ t ⟨halike, hnormal, hdocument, later, hreference⟩
  refine .bind (hnested content p t (hs.of_alike halike) hnormal hdocument) ?_
  rintro output u ⟨hu, hhas⟩
  refine (recalls_lookup hu fun _ => Make.looksUp_foundAt output).mono ?_ fun _ _ h => h
  rintro ⟨_, made⟩ v ⟨halike, rfl, hmade⟩
  exact ⟨hu.of_alike halike, p, later, content, hreference, hdocument,
    hu.exports_eq hnormal hdocument hhas hmade⟩

theorem recalls_resolveStep (hs : s.Recalls documents) (source : Path) (imports : List Import) (step : Step) :
    Runs (Moment.Shows documents) (fun m => m.session.Recalls documents)
      (resolveStep depth nested source imports step) s
      (fun resolved t => t.Recalls documents ∧ step.Resolved documents source s resolved.1)
      fun _ t => t.Recalls documents := by
  unfold resolveStep
  split
  · next raw haction =>
    refine .bind (recalls_called hnested hs source step raw) ?_
    rintro ⟨output, made⟩ t ⟨ht, p, later, content, hreference, hdocument, hexports⟩
    refine .bind (recalls_lookup ht fun _ => Make.looksUp_moduleName output) ?_
    rintro name u ⟨halike, -⟩
    refine .pure ⟨ht.of_alike halike, fun hother => absurd ⟨raw, haction⟩ hother, fun raw' haction' => ?_⟩
    rw [haction] at haction'
    cases haction'
    refine ⟨p, later, content, hreference, hdocument, ?_⟩
    rw [← hexports]
    exact mergesExports_mergeExports step.exports made.exports
  · next hother => exact .pure ⟨hs, fun _ => rfl, fun raw haction => absurd haction (hother raw)⟩

/-- Every step is resolved in the session that the steps before it leave. -/
theorem recalls_resolveSteps {plain : Value → Path → Make Path}
    (hfollows : ∀ content p, Follows False (nested content p) (plain content p)) (hs : s.Recalls documents)
    (source : Path) (imports : List Import) (steps : List Step) :
    Runs (Moment.Shows documents) (fun m => m.session.Recalls documents)
      (resolveSteps depth nested source imports steps) s
      (fun resolved t => t.Recalls documents ∧ resolved.1.length = steps.length ∧
        ∀ i step, steps[i]? = some step → ∃ step' before mid, resolved.1[i]? = some step' ∧
          Make.resolveSteps plain source imports (steps.take i) s = .ok (resolved.1.take i, before) mid ∧
          step.Resolved documents source mid step')
      fun _ t => t.Recalls documents := by
  induction steps generalizing s imports with
  | nil => exact .pure ⟨hs, rfl, by simp⟩
  | cons step rest ih =>
    unfold resolveSteps
    refine .bind (((recalls_resolveStep hnested hs source imports step).and
      (follows_resolveStep hfollows source imports step).runs).mono (fun _ _ h => h) fun _ _ h => h.1) ?_
    rintro ⟨step', imports₁⟩ t ⟨⟨ht, hresolved⟩, hfirst⟩
    refine .bind (ih ht imports₁) ?_
    rintro ⟨rest', imports₂⟩ u ⟨hu, hlength, hall⟩
    refine .pure ⟨hu, congrArg (· + 1) hlength, fun i other hother => ?_⟩
    cases i with
    | zero =>
      cases hother
      exact ⟨step', imports, s, rfl, rfl, hresolved⟩
    | succ i =>
      obtain ⟨other', before, mid, hat, hmid, hother⟩ := hall i other hother
      refine ⟨other', before, mid, hat, ?_, hother⟩
      rw [List.take_succ_cons, Make.resolveSteps, bind_of_ok hfirst]
      dsimp only
      rw [bind_of_ok hmid]
      rfl

/-- The module of a document is kept with what the document declares. -/
theorem recalls_build {plain : Value → Path → Make Path}
    (hfollows : ∀ content p, Follows False (nested content p) (plain content p)) (hs : s.Recalls documents)
    {testcase : Testcase} {raw : Value} (hnormal : testcase.config.source.normalize = testcase.config.source)
    (hdocument : documents testcase.config.source = some raw)
    (hexports : testcase.config.exports.getD [] = Legacy.declaredExports raw) (output : Path) (className : String) :
    Runs (Moment.Shows documents) (fun m => m.session.Recalls documents)
      (build depth nested raw testcase output className) s
      (fun _ t => t.Recalls documents ∧ t.Has testcase.config.source output) fun _ t => t.Recalls documents := by
  set source := testcase.config.source with hsource
  have hresolved : Runs (Moment.Shows documents) (fun m => m.session.Recalls documents)
      (whileResolving source (resolveSteps depth nested source [] testcase.steps)) s
      (fun _ t => t.Recalls documents) fun _ t => t.Recalls documents := by
    apply Runs.whileResolving
    have hpushed : Session.Recalls documents { s with resolving := s.resolving ++ [source] } := hs
    exact (recalls_resolveSteps hnested hfollows hpushed source [] testcase.steps).mono (fun _ _ h => h.1)
      fun _ _ h => h
  unfold build
  refine .bind hresolved ?_
  rintro ⟨steps, imports⟩ t ht
  refine .bind (recalls_lookup ht fun _ => Make.looksUp_scripted _ _ _) ?_
  rintro script u ⟨halike, -⟩
  replace ht := ht.of_alike halike
  refine .bind (Q := fun _ v => v.Recalls documents) (.claimClass (fun _ => ht) (fun _ _ _ => ht) fun _ _ => ht) ?_
  intro _ v hv
  refine .bind (Q := fun _ w => w.Recalls documents) (.emit v.settings.covers_true (fun _ _ => trivial)
    (fun _ => hv) (fun _ _ _ _ => hv) fun _ _ _ _ => hv) ?_
  intro _ w hw
  refine .of_eq rfl (fun _ => hw) fun _ => ⟨hw.keep hnormal hdocument hexports output, ?_⟩
  exact ⟨_, w.made?_keep output _, Path.same_iff.2 rfl⟩

theorem recalls_testcaseWith {plain : Value → Path → Make Path}
    (hfollows : ∀ content p, Follows False (nested content p) (plain content p)) (hs : s.Recalls documents)
    {raw : Value} {source : Path} (hdocument : documents source.normalize = some raw)
    (outputDirectory : Option Path) :
    Runs (Moment.Shows documents) (fun m => m.session.Recalls documents)
      (testcaseWith depth nested raw source outputDirectory) s
      (fun output t => t.Recalls documents ∧ t.Has source.normalize output) fun _ t => t.Recalls documents := by
  unfold testcaseWith
  refine .bind (recalls_lookup hs fun _ => Make.looksUp_drafted raw source.normalize outputDirectory) ?_
  rintro ⟨testcase, output, className⟩ t ⟨halike, ⟨document, hread, htestcase⟩, -⟩
  have hsource : testcase.config.source = source.normalize := Testcase.source_of_ofDocument htestcase
  replace hs := hs.of_alike halike
  refine .bind (recalls_lookup hs fun _ => .get) ?_
  rintro _ u ⟨halike, rfl⟩
  have hu := hs.of_alike halike
  cases hmade : t.made? output with
  | some made =>
    dsimp only
    split
    · next hfrom =>
      refine .pure ⟨hu, made, ?_, hfrom⟩
      obtain ⟨roots, rfl⟩ := halike.roots
      exact hmade
    · exact .of_eq rfl (fun _ => hu) fun _ => hu
  | none =>
    dsimp only
    split
    · exact .of_eq rfl (fun _ => hu) fun _ => hu
    · have hbuild : Runs (Moment.Shows documents) (fun m => m.session.Recalls documents)
          (build depth nested raw testcase output className) u _ _ :=
        recalls_build hnested hfollows hu (hsource ▸ Path.normalize_normalize source) (hsource ▸ hdocument)
          (Testcase.exports_of_normalize hread htestcase) output className
      rw [hsource] at hbuild
      exact .bind hbuild fun _ v hv => .pure hv

end Nested

/-- A run remembers what documents declare, and has the module of its own. -/
theorem recalls_testcaseWithin {fuel : Nat} (hs : s.Recalls documents) {raw : Value} {source : Path}
    (hdocument : documents source.normalize = some raw) (outputDirectory : Option Path) :
    Runs (Moment.Shows documents) (fun m => m.session.Recalls documents)
      (testcaseWithin depth fuel raw source outputDirectory) s
      (fun output t => t.Recalls documents ∧ t.Has source.normalize output) fun _ t => t.Recalls documents := by
  induction fuel generalizing depth s raw source outputDirectory with
  | zero => exact .of_eq rfl (fun _ => hs) fun _ => hs
  | succ fuel ih =>
    refine recalls_testcaseWith ?_ (fun content q => follows_testcaseWithin (.inl rfl) content q none) hs hdocument
      outputDirectory
    intro content p t ht hnormal hcontent
    have hrun := @ih (depth + 1) t ht content p (hnormal.symm ▸ hcontent) none
    rwa [hnormal] at hrun

end Observed

/-- While references are resolved, documents do not change if none is written. -/
theorem unchanging_resolveSteps {s : Session} (hstack : s.resolving = []) (hsettings : s.settings.WritesNoDocument)
    (hworking : s.disk.kind? s.disk.workingDirectory = some .directory) {source : Path}
    (hnormal : source.normalize = source) (fuel : Nat) (steps : List Step) :
    Unchanging s.disk (Observed.resolveSteps 1 (fun content p => Observed.testcaseWithin 2 fuel content p none)
      source [] steps { s with resolving := s.resolving ++ [source] }).2 := by
  set touched : String → Prop := fun name => ¬ Source.IsDocumentName name
  set pushed : Session := { s with resolving := s.resolving ++ [source] } with hpushed
  have hstacked : Stacked touched s.disk (fun _ => True) pushed :=
    (Stacked.of_nil hstack hsettings.covers).push hnormal (by simp [hstack]) (.of_nil hstack _)
  have hlength : ∀ t, Stays touched pushed t → t.resolving.length = 1 := by
    intro t ht
    rw [ht.resolving, hpushed]
    simp [hstack]
  have hnested : StaysNested touched s.disk (fun _ => True) False 0 2
      fun content p => Observed.testcaseWithin 2 fuel content p none :=
    fun content p t ht hdepth hp hsource =>
      Observed.runs_testcaseWithin nofun ht hdepth content (hp.symm ▸ hsource) none
  have hrun : Runs (Assumed (fun _ => True) False 0) (StackedAt touched s.disk fun _ => True)
      (Observed.resolveSteps 1 (fun content p => Observed.testcaseWithin 2 fuel content p none) source [] steps)
      pushed (fun _ _ => True) (EndsWithin touched False pushed) := by
    refine (Runs.resolveSteps (R := Stays touched) (C := fun _ _ => True) .refl .trans (fun _ _ => trivial) ?_ ?_
      []).mono (fun _ _ _ => trivial) fun _ _ h => h
    · intro t ht step _ raw _
      refine (Observed.runs_called hnested (hstacked.stays ht) (hlength t ht) source step raw).mono ?_ ?_
      · exact fun _ _ h => ⟨h, trivial⟩
      · exact fun _ _ h => ⟨ht.trans h.1, h.2⟩
    · intro t ht output
      refine (Observed.runs_lookup ht (hstacked.stays ht) ?_ fun _ => Make.looksUp_moduleName output).mono ?_
        fun _ _ h => h
      · rw [hlength t ht]
        omega
      · exact fun _ _ h => .of_alike h.1
  intro m hm p v hp hload
  have hat := hrun.moments (fun m _ => ⟨fun _ _ _ _ => trivial, nofun⟩) m hm
  exact (Source.load_eq_ok_iff_of_touches (fun _ h h' => h' h) hat.stacked.since hworking hp v).1 hload

/-! ## The life of a session -/

/-- An order for one of the documents leaves a session that remembers what documents declare, also where it fails,
and passes only such sessions. -/
theorem Order.recalls {documents : Path → Option Value} {s : Session} (hs : s.Recalls documents) (o : Order)
    (hdocument : documents (Path.ofString o.source).normalize = some o.document) :
    Runs (Moment.Shows documents) (fun m => m.session.Recalls documents) o.observed s
      (fun _ t => t.Recalls documents) fun _ t => t.Recalls documents := by
  refine .bind (Observed.recalls_lookup hs fun _ => .get) ?_
  rintro _ t ⟨halike, rfl⟩
  exact (Observed.recalls_testcaseWithin (hs.of_alike halike) hdocument _).mono (fun _ _ h => h.1) fun _ _ h => h

/-- The sessions of a life in which documents stay as they are: it begins with nothing made and nothing
remembered, and goes on with orders for documents, at whose moments only these can be loaded.  Between the orders, and
at any moment of them, the files, the files to run and the stack may be changed. -/
inductive Life (documents : Path → Option Value) : Session → Prop
  | fresh (settings : Settings) (locator : Locator) (disk : Disk) : Life documents { settings, locator, disk }
  | change {s : Session} (h : Life documents s) (disk : Disk) (runSet resolving : List Path) :
    Life documents { s with disk, runSet, resolving }
  | order {s : Session} (h : Life documents s) (o : Order)
    (hdocument : documents (Path.ofString o.source).normalize = some o.document)
    (hshows : ∀ m ∈ (o.observed s).2, m.Shows documents) : Life documents (stateAfter o.make s)
  | within {s : Session} (h : Life documents s) (o : Order)
    (hdocument : documents (Path.ofString o.source).normalize = some o.document)
    (hshows : ∀ m ∈ (o.observed s).2, m.Shows documents) {m : Moment} (hm : m ∈ (o.observed s).2) :
    Life documents m.session

theorem Life.recalls {documents : Path → Option Value} {s : Session} (h : Life documents s) :
    s.Recalls documents := by
  induction h with
  | fresh settings locator disk => exact fun _ hentry => absurd hentry List.not_mem_nil
  | change _ disk runSet resolving ih => exact ih
  | order _ o hdocument hshows ih =>
    have hends := (o.recalls ih hdocument).ends hshows
    rw [o.observed_fst] at hends
    rw [stateAfter]
    generalize o.make _ = result at hends
    cases result with
    | ok output t | error e t => exact hends
  | within _ o hdocument hshows hm ih => exact (o.recalls ih hdocument).moments hshows _ hm

/-- **Exports of called testcases.**  In the life of a session in which documents stay as they are, the references of
some steps are resolved.  Each step is resolved in the session that the steps before it leave, and it is in its place
afterwards.  If it calls no testcase by its path, it stays as it is.  If it does, its reference leads to one of the
documents, and the step exports its own names and then, in the order of their first occurrences, those others that
the document declares; it has no exports exactly if it had none and the document declares none. -/
theorem called_exports_are_merged {documents : Path → Option Value} {s t : Session} (hlife : Life documents s)
    (depth fuel : Nat) {source : Path} {steps steps' : List Step} {imports : List Import}
    (hshows : ∀ m ∈ (Observed.resolveSteps depth
      (fun content p => Observed.testcaseWithin (depth + 1) fuel content p none) source [] steps s).2,
      m.Shows documents)
    (hrun : Make.resolveSteps (fun content p => Make.testcaseWithin fuel content p none) source [] steps s
      = .ok (steps', imports) t) :
    steps'.length = steps.length ∧ ∀ i step, steps[i]? = some step → ∃ step' before mid, steps'[i]? = some step' ∧
      Make.resolveSteps (fun content p => Make.testcaseWithin fuel content p none) source [] (steps.take i) s
        = .ok (steps'.take i, before) mid ∧ step.Resolved documents source mid step' := by
  have hdelivers : Delivers documents fun content p => Observed.testcaseWithin (depth + 1) fuel content p none := by
    intro content p u hu hnormal hcontent
    have hcall := @Observed.recalls_testcaseWithin documents (depth + 1) u fuel hu content p
      (hnormal.symm ▸ hcontent) none
    rwa [hnormal] at hcall
  have hfollows : ∀ content p, Follows False (Observed.testcaseWithin (depth + 1) fuel content p none)
      (Make.testcaseWithin fuel content p none) :=
    fun content p => Observed.follows_testcaseWithin (.inl rfl) content p none
  have hends := (Observed.recalls_resolveSteps hdelivers hfollows hlife.recalls source [] steps).ends hshows
  rw [(Observed.follows_resolveSteps hfollows source [] steps s).resolve_right fun h => h.1, hrun] at hends
  exact hends.2

/-- A project with a testcase that exports two names, one of them twice, and a single request that extracts two
others. -/
def exportingProject : Disk :=
  ⟨[("p", .directory [
    ("b.json", .file ("\x7b\"config\": \x7b\"name\": \"b\", \"export\": [\"x\", \"y\", \"x\"]\x7d, "
      ++ "\"teststeps\": []\x7d").toUTF8),
    ("debugtalk.py", .file "".toUTF8),
    ("token.json", .file ("\x7b\"name\": \"token\", \"request\": \x7b\"method\": \"GET\", \"url\": \"/\"\x7d, "
      ++ "\"extract\": [\x7b\"k\": \"body.k\"\x7d, \x7b\"l\": \"body.l\", \"k\": \"body.m\"\x7d]\x7d").toUTF8)])],
    [], []⟩

/-- Steps that call the documents of the project, and one that sends a request. -/
def exportingSteps : List Step :=
  [(some ["y", "z"], .call (.path "b.json")),
    (some ["y"], .request ⟨.get, "/", none, none, none, none, none, none, none, none, none⟩),
    (none, .call (.path "b.json")), (none, .call (.path "./token.json"))].map fun given =>
      ⟨"step", none, none, none, none, given.1, none, given.2⟩

/-- A testcase is called twice, the second time from what is remembered of it, and a single request is called as
well. -/
theorem called_exports_are_merged_twice :
    let s : Session := {
      settings := {}, locator := .marker "debugtalk.py" (.ofString "/"), disk := exportingProject
      resolving := [.ofString "/p/a.json"] }
    let documents : Path → Option Value := fun p => (Source.load exportingProject p).toOption
    ∃ steps imports t, Make.resolveSteps (fun content p => Make.testcaseWithin 1 content p none)
        (.ofString "/p/a.json") [] exportingSteps s = .ok (steps, imports) t ∧
      steps.map Step.exports = [some ["y", "z", "x"], some ["y"], some ["x", "y"], some ["k", "l"]] ∧
      ∀ (i : Nat) (step : Step), exportingSteps[i]? = some step → ∃ step' mid, steps[i]? = some step' ∧
        step.Resolved documents (.ofString "/p/a.json") mid step' := by
  intro s documents
  have hpasses : passes (fun resolved _ => decide (resolved.1.map Step.exports
      = [some ["y", "z", "x"], some ["y"], some ["x", "y"], some ["k", "l"]]))
      (Make.resolveSteps (fun content p => Make.testcaseWithin 1 content p none) (.ofString "/p/a.json") []
        exportingSteps s) = true := by
    decide +kernel
  obtain ⟨⟨steps, imports⟩, t, hrun, hexports⟩ := exists_of_passes hpasses
  have hlife : Life documents s :=
    .change (.fresh {} (.marker "debugtalk.py" (.ofString "/")) exportingProject) exportingProject []
      [.ofString "/p/a.json"]
  have hunchanging : Unchanging exportingProject (Observed.resolveSteps 1
      (fun content p => Observed.testcaseWithin 2 1 content p none) (.ofString "/p/a.json") [] exportingSteps s).2 :=
    unchanging_resolveSteps (s := { s with resolving := [] }) rfl Settings.writesNoDocument_default
      (Disk.hasDirectory_iff.1 (by decide)) (by decide) 1 exportingSteps
  have hshows : ∀ m ∈ (Observed.resolveSteps 1 (fun content p => Observed.testcaseWithin 2 1 content p none)
      (.ofString "/p/a.json") [] exportingSteps s).2, m.Shows documents := by
    intro m hm p v hp hload
    show (Source.load exportingProject p).toOption = some v
    rw [hunchanging m hm p v hp hload]
    rfl
  obtain ⟨-, hall⟩ := called_exports_are_merged hlife 1 1 hshows hrun
  refine ⟨steps, imports, t, hrun, of_decide_eq_true hexports, fun i step hstep => ?_⟩
  obtain ⟨step', before, mid, hat, -, hresolved⟩ := hall i step hstep
  exact ⟨step', mid, hat, hresolved⟩

end TestScribe
