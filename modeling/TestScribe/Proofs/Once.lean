/-
# Each module is made once

A module that was made is found again at its path, so that it is not written a second time: at every moment of
writing there is none at the path.

* `WritesNew` : at a moment of writing, there is no module at the path;
* `Session.course` : the moments of carrying out orders;
* `modules_made_once` : entries stay, no module is written twice, and an order that was carried out before
  changes nothing.
-/
import TestScribe.Proofs.Adding
import TestScribe.Proofs.Chronicle

namespace TestScribe

/-! ## Runs -/

/-- A session of a project with a fixed root, since the modules `before` were made. -/
structure Since (root : Path) (suffix : String) (before : List (Path × Made)) (s : Session) : Prop where
  locator : s.locator = .fixed root
  generatedSuffix : s.settings.generatedSuffix = suffix
  made : before <+: s.made

/-- The modules made `before` are there at a moment, and none is where one is written. -/
structure WritesNew (before : List (Path × Made)) (m : Moment) : Prop where
  made : before <+: m.session.made
  fresh : ∀ output, m.writes = some output → m.session.made? output = none

section Runs

variable {root : Path} {suffix : String} {before : List (Path × Made)} {s t : Session}

theorem Adds.since {stack : List Path} (h : Adds suffix stack s t) (hs : Since root suffix before s) :
    Since root suffix before t := by
  obtain ⟨new, hnew, -⟩ := h.made
  refine ⟨h.locator.trans hs.locator, ?_, ?_⟩
  · rw [h.settings, hs.generatedSuffix]
  · rw [hnew]
    exact hs.made.trans (List.prefix_append _ _)

theorem Since.writesNew (h : Since root suffix before s) (depth : Nat) {keeps : Option Record} :
    WritesNew before ⟨s, depth, none, keeps⟩ := ⟨h.made, nofun⟩

/-- What is claimed of the calls that are nested in a run. -/
def MakesNew (root : Path) (suffix : String) (before : List (Path × Made))
    (nested : Value → Path → Observed Path) : Prop :=
  ∀ (content : Value) (p : Path) (s : Session), Since root suffix before s → p.IsPlain →
    p.normalize = p → Runs (fun _ => True) (WritesNew before) (nested content p) s
      (fun output t => Adds suffix s.resolving s t ∧ t.Has p output) fun _ => Adds suffix s.resolving s

namespace Observed

variable {depth : Nat} {stack : List Path}

/-- A step that looks something up adds nothing. -/
theorem adds_lookup {α : Type} {step : Make α} {P : α → Prop} (hs : Since root suffix before s)
    (hts : Adds suffix stack t s) (h : LooksUp step s P) :
    Runs (fun _ => True) (WritesNew before) (ofMake depth step) s (fun a u => s = u ∧ P a)
      fun _ => Adds suffix stack t := by
  refine (Runs.lookup_fixed hs.locator (fun _ => hs.writesNew depth) fun _ => h).mono
    (fun _ _ h => h) ?_
  rintro e _ ⟨rfl, -⟩
  exact hts

section Nested

variable {nested : Value → Path → Observed Path} (hnested : MakesNew root suffix before nested)
  (hroot : root.IsPlain)

include hnested hroot

theorem adds_called (hs : Since root suffix before s) (source : Path) (step : Step) (raw : String) :
    Runs (fun _ => True) (WritesNew before) (called depth nested source step raw) s
      (fun _ => Adds suffix s.resolving s) fun _ => Adds suffix s.resolving s := by
  unfold called
  refine .bind (adds_lookup hs (.refl s) (Make.looksUp_opened source step raw)) ?_
  rintro ⟨content, p⟩ _ ⟨rfl, hnormal, -, hp⟩
  replace hp : p = referenced root raw := hp root hs.locator
  have hplain : p.IsPlain := hp ▸ isPlain_referenced hroot raw
  refine .bind (hnested content p s hs hplain hnormal) ?_
  rintro output t ⟨ht, -⟩
  refine (adds_lookup (ht.since hs) ht (Make.looksUp_foundAt output)).mono ?_ fun _ _ h => h
  rintro found _ ⟨rfl, -⟩
  exact ht

/-- The module of a source is added at a path where there was none, which is still so when the module is
written. -/
theorem adds_build (hsuffix : '/' ∉ suffix.toList) (hs : Since root suffix before s) (document : Value)
    {testcase : Testcase} (hplain : testcase.config.source.IsPlain)
    (hnormal : testcase.config.source.normalize = testcase.config.source)
    (hnew : (s.resolving.any (·.same testcase.config.source)) = false) {output : Path}
    {className : String} {outputDirectory : Option Path}
    (hplaced : Naming.placedIn root suffix testcase.config.source outputDirectory
      = .ok (output, className)) (hnone : s.made? output = none) :
    Runs (fun _ => True) (WritesNew before) (build depth nested document testcase output className) s
      (fun _ t => Adds suffix s.resolving s t ∧ t.Has testcase.config.source output)
      fun _ => Adds suffix s.resolving s := by
  set source := testcase.config.source with hsource
  have hsubset : s.resolving ⊆ s.resolving ++ [source] := List.subset_append_left _ _
  have hresolved : Runs (fun _ => True) (WritesNew before)
      (whileResolving source (resolveSteps depth nested source [] testcase.steps)) s
      (fun _ => Adds suffix (s.resolving ++ [source]) s) fun _ => Adds suffix s.resolving s := by
    apply Runs.whileResolving
    set pushed : Session := { s with resolving := s.resolving ++ [source] }
    have hpushed : Since root suffix before pushed := ⟨hs.locator, hs.generatedSuffix, hs.made⟩
    refine (Runs.resolveSteps (R := Adds suffix pushed.resolving) (C := fun _ _ => True)
      (E := fun _ => Adds suffix pushed.resolving pushed) .refl .trans (fun _ _ => trivial) ?_ ?_ []).mono
      ?_ ?_
    · intro t ht step _ raw _
      have hcalled : Runs (fun _ => True) (WritesNew before) (called depth nested source step raw) t
          (fun _ => Adds suffix t.resolving t) fun _ => Adds suffix t.resolving t :=
        adds_called hnested hroot (ht.since hpushed) source step raw
      rw [ht.resolving] at hcalled
      exact hcalled.mono (fun _ _ h => ⟨h, trivial⟩) fun _ _ h => ht.trans h
    · intro t ht output
      refine (adds_lookup (ht.since hpushed) ht (Make.looksUp_moduleName output)).mono ?_ fun _ _ h => h
      rintro name _ ⟨rfl, -⟩
      exact .refl _
    · exact fun _ _ h => h.1.of_push
    · exact fun _ _ h => h.of_push.of_subset hsubset
  unfold build
  refine .bind hresolved ?_
  rintro ⟨steps, imports⟩ t ht
  refine .bind (adds_lookup (ht.since hs) (ht.of_subset hsubset) (Make.looksUp_scripted _ _ _)) ?_
  rintro script _ ⟨rfl, below, -, hbelow, -⟩
  replace hbelow := hbelow root (ht.since hs).locator
  have hnamed : ∀ name, output.fileName? = some name →
      ∃ stem, name = stem ++ suffix ∧ className = Naming.className stem :=
    fun name => Naming.exists_stem_of_placedIn hroot hsuffix hplain hnormal hplaced hbelow
  refine .bind (Q := fun _ u => Adds suffix (s.resolving ++ [source]) s u ∧ u.made? output = none ∧
      ∃ c, u.claim? output.parent className = some c ∧ c.source.same source)
    (.claimClass (fun _ => (ht.since hs).writesNew depth) ?_ fun _ _ => ht.of_subset hsubset) ?_
  · exact fun _ hclaimed hfree => ⟨ht.trans (.of_eq rfl rfl rfl rfl rfl),
      ht.made?_eq_none (List.mem_append_right _ List.mem_cons_self) hnone hnamed hfree, hclaimed⟩
  rintro _ u ⟨hu, hfresh, hclaimed⟩
  have hdisk : ∀ d, Adds suffix s.resolving s { u with disk := d } := fun d =>
    (hu.of_subset hsubset).trans (.of_eq rfl rfl rfl (List.append_nil _).symm rfl)
  refine .bind (Q := fun _ v => Adds suffix s.resolving s v ∧ v.made? output = none ∧
      (∃ c, v.claim? output.parent className = some c ∧ c.source.same source) ∧ ∃ name, output.EndsIn name)
    (.emit u.settings.covers_true (fun _ _ => trivial) ?_
      (fun d _ _ hend => ⟨hdisk d, hfresh, hclaimed, hend⟩) fun _ d _ _ => hdisk d) ?_
  · refine fun _ => ⟨(hu.since hs).made, ?_⟩
    rintro _ ⟨⟩
    exact hfresh
  rintro _ v ⟨hv, hfresh, hclaimed, name, hend⟩
  obtain ⟨stem, rfl, hclass⟩ := hnamed name hend.fileName?_eq
  refine .of_eq rfl (fun _ => (hv.since hs).writesNew depth) fun _ => ⟨?_, ?_⟩
  · exact hv.keep hfresh ⟨⟨stem, hend.fileName?_eq, hclass⟩, hclaimed, Path.not_same_of_any hnew⟩
  · exact ⟨_, v.made?_keep output _, Path.same_iff.2 rfl⟩

theorem adds_testcaseWith (hsuffix : '/' ∉ suffix.toList) (hs : Since root suffix before s) (raw : Value)
    {source : Path} (hplain : source.IsPlain) (outputDirectory : Option Path) :
    Runs (fun _ => True) (WritesNew before) (testcaseWith depth nested raw source outputDirectory) s
      (fun output t => Adds suffix s.resolving s t ∧ t.Has source.normalize output)
      fun _ => Adds suffix s.resolving s := by
  unfold testcaseWith
  refine .bind (adds_lookup hs (.refl s) (Make.looksUp_drafted _ _ _)) ?_
  rintro ⟨testcase, output, className⟩ _ ⟨rfl, ⟨document, -, htestcase⟩, -, hplaced⟩
  replace hplaced := hplaced root hs.locator
  rw [hs.generatedSuffix] at hplaced
  have hsource : testcase.config.source = source.normalize := Testcase.source_of_ofDocument htestcase
  refine .bind (adds_lookup hs (.refl s) .get) ?_
  rintro _ _ ⟨rfl, rfl⟩
  cases hnone : s.made? output with
  | some made =>
    dsimp only
    split
    · next hsame => exact .pure ⟨.refl s, made, hnone, hsame⟩
    · exact .of_eq rfl (fun _ => hs.writesNew depth) fun _ => .refl s
  | none =>
    dsimp only
    split
    · exact .of_eq rfl (fun _ => hs.writesNew depth) fun _ => .refl s
    · next hnew =>
      rw [Bool.not_eq_true, ← hsource] at hnew
      rw [← hsource] at hplaced
      refine .bind (adds_build hnested hroot hsuffix hs raw ?_ ?_ hnew hplaced hnone)
        fun _ t ht => .pure (hsource ▸ ht)
      · rw [hsource]
        exact Path.isPlain_normalize hplain
      · rw [hsource, Path.normalize_normalize]

end Nested

/-- A run adds modules at new paths, and writes none where there is one. -/
theorem adds_testcaseWithin (hroot : root.IsPlain) (hsuffix : '/' ∉ suffix.toList) {fuel : Nat}
    (hs : Since root suffix before s) (raw : Value) {source : Path} (hplain : source.IsPlain)
    (outputDirectory : Option Path) :
    Runs (fun _ => True) (WritesNew before)
      (testcaseWithin depth fuel raw source outputDirectory) s
      (fun output t => Adds suffix s.resolving s t ∧ t.Has source.normalize output)
      fun _ => Adds suffix s.resolving s := by
  induction fuel generalizing depth s raw source outputDirectory with
  | zero => exact .of_eq rfl (fun _ => hs.writesNew depth) fun _ => .refl s
  | succ fuel ih =>
    refine adds_testcaseWith ?_ hroot hsuffix hs raw hplain outputDirectory
    intro content p t ht hp hnormal
    refine (ih ht content hp none).mono ?_ fun _ _ h => h
    rintro output u ⟨hu, hhas⟩
    rw [hnormal] at hhas
    exact ⟨hu, hhas⟩

end Observed

end Runs

/-! ## Orders -/

/-- The moments of carrying out some orders, those that fail among them. -/
def Session.course (s : Session) : List Order → List Moment
  | [] => []
  | o :: orders => (o.observed s).2 ++ (stateAfter o.make s).course orders

section Orders

variable {root : Path} {suffix : String} (hroot : root.IsPlain) (hsuffix : '/' ∉ suffix.toList)
  {before : List (Path × Made)} {s : Session}

include hroot hsuffix

theorem Observed.adds_testcase (hs : Since root suffix before s) (raw : Value) {source : Path}
    (hplain : source.IsPlain) (outputDirectory : Option Path) :
    Runs (fun _ => True) (WritesNew before) (testcase raw source outputDirectory) s
      (fun output t => Adds suffix s.resolving s t ∧ t.Has source.normalize output)
      fun _ => Adds suffix s.resolving s := by
  refine .bind (adds_lookup hs (.refl s) .get) ?_
  rintro _ _ ⟨rfl, rfl⟩
  exact adds_testcaseWithin hroot hsuffix hs raw hplain outputDirectory

theorem adds_order (hs : Since root suffix before s) (o : Order) :
    Runs (fun _ => True) (WritesNew before) o.observed s (fun _ => Adds suffix s.resolving s)
      fun _ => Adds suffix s.resolving s :=
  (Observed.adds_testcase hroot hsuffix hs o.document (Path.isPlain_ofString o.source) _).mono
    (fun _ _ h => h.1) fun _ _ h => h

theorem adds_stateAfter (hs : Since root suffix before s) (o : Order) :
    Adds suffix s.resolving s (stateAfter o.make s) := by
  have hends := (adds_order hroot hsuffix hs o).ends fun _ _ => trivial
  rw [o.observed_fst] at hends
  unfold stateAfter
  cases hresult : o.make s with
  | ok output t =>
    rw [hresult] at hends
    exact hends
  | error e t =>
    rw [hresult] at hends
    exact hends

theorem adds_after (hs : Since root suffix before s) (orders : List Order) :
    Adds suffix s.resolving s (s.after orders) := by
  induction orders generalizing s with
  | nil => exact .refl s
  | cons o orders ih =>
    have hfirst := adds_stateAfter hroot hsuffix hs o
    have hrest := ih (hfirst.since hs)
    rw [hfirst.resolving] at hrest
    exact hfirst.trans hrest

theorem writesNew_of_mem_course (hs : Since root suffix before s) (orders : List Order) :
    ∀ m ∈ s.course orders, WritesNew before m := by
  induction orders generalizing s with
  | nil => simp [Session.course]
  | cons o orders ih =>
    intro m hm
    rcases List.mem_append.1 hm with hm | hm
    · exact (adds_order hroot hsuffix hs o).moments (fun _ _ => trivial) m hm
    · exact ih ((adds_stateAfter hroot hsuffix hs o).since hs) m hm

end Orders

/-- A document whose module was made from the same source has this module, and nothing changes. -/
theorem Make.testcase_eq_of_made? {root : Path} {s : Session} (hroot : s.locator = .fixed root)
    {raw : Value} {document : Mapping} (hdocument : Legacy.normalize raw = .ok document) {source : Path}
    {testcase : Testcase} (htestcase : Testcase.ofDocument document source.normalize = .ok testcase)
    {outputDirectory : Option Path} {output : Path} {className : String}
    (hplaced : Naming.placedIn root s.settings.generatedSuffix source.normalize outputDirectory
      = .ok (output, className)) {made : Made} (hmade : s.made? output = some made)
    (hsource : made.source.same source.normalize) :
    Make.testcase raw source outputDirectory s = .ok output s := by
  show testcaseWith _ raw source outputDirectory s = .ok output s
  rw [testcaseWith_eq, bind_of_ok (drafted_eq_ok hroot hdocument htestcase hplaced)]
  dsimp only
  rw [bind_get, hmade]
  dsimp only
  rw [if_pos hsource]
  rfl

/-- **Modules are made once.**  After any orders in a fresh session of a project with a fixed root:

* the paths of the modules made are distinct, and what is found at a path is found there after any more
  orders;
* in the course of any more orders, which is that of carrying them out, no module is written at such a
  path, and none is where one is written;
* an order for a document that passes, whose module goes to a path where there is one of the same source,
  has this path for its result, and the session with its disk stays as it is. -/
theorem modules_made_once (settings : Settings) (root : String) (disk : Disk)
    (hsuffix : '/' ∉ settings.generatedSuffix.toList) (orders more : List Order) :
    let s := (Session.fresh settings root disk).after orders
    s.made.Pairwise (fun entry other => ¬ entry.1.same other.1) ∧
    (∀ p made, s.made? p = some made → (s.after more).made? p = some made) ∧
    ((∀ (o : Order) (t : Session), (o.observed t).1 = o.make t) ∧
      ∀ m ∈ s.course more, ∀ output, m.writes = some output →
        s.made? output = none ∧ m.session.made? output = none) ∧
    ∀ (o : Order) (document : Mapping) (testcase : Testcase) (output : Path) (className : String)
      (made : Made), Legacy.normalize o.document = .ok document →
      Testcase.ofDocument document (Path.ofString o.source).normalize = .ok testcase →
      Naming.placedIn (.ofString root) settings.generatedSuffix (Path.ofString o.source).normalize
        (o.outputDirectory.map .ofString) = .ok (output, className) →
      s.made? output = some made → made.source.same (Path.ofString o.source).normalize →
      o.make s = .ok output s := by
  intro s
  have hroot := Path.isPlain_ofString root
  have hfresh : Since (.ofString root) settings.generatedSuffix [] (Session.fresh settings root disk) :=
    ⟨rfl, rfl, List.nil_prefix⟩
  have hadds := adds_after hroot hsuffix hfresh orders
  have hs : Since (.ofString root) settings.generatedSuffix s.made s :=
    ⟨(hadds.since hfresh).locator, (hadds.since hfresh).generatedSuffix, List.prefix_rfl⟩
  refine ⟨hadds.distinct .nil, ?_, ?_, ?_⟩
  · intro p made hmade
    exact Session.made?_of_prefix ((adds_after hroot hsuffix hs more).since hs).made hmade
  · refine ⟨Order.observed_fst, fun m hm output hwrites => ?_⟩
    obtain ⟨hbegins, hnone⟩ := writesNew_of_mem_course hroot hsuffix hs more m hm
    refine ⟨?_, hnone output hwrites⟩
    cases hmade : s.made? output with
    | none => rfl
    | some made =>
      have hstays := Session.made?_of_prefix hbegins hmade
      rw [hnone output hwrites] at hstays
      cases hstays
  · intro o document testcase output className made hdocument htestcase hplaced hmade hsource
    rw [← hs.generatedSuffix] at hplaced
    exact Make.testcase_eq_of_made? hs.locator hdocument htestcase hplaced hmade hsource

/-- The text of a document without steps. -/
def emptyText (name : String) : String :=
  "\x7b\"config\": \x7b\"name\": \"" ++ name ++ "\"\x7d, \"teststeps\": []\x7d"

/-- A project with one testcase in it. -/
def oneTestcase : Disk :=
  ⟨[("p", .directory [("b.json",
    .file "\x7b\"config\": \x7b\"name\": \"b\"\x7d, \"teststeps\": []\x7d".toUTF8)])], [], []⟩

/-- A document that calls one testcase. -/
def caller (raw : String) : Value :=
  .mapping [("config", .mapping [("name", .text "a")]),
    ("teststeps", .list [.mapping [("name", .text "call"), ("testcase", .text raw)]])]

/-- A testcase that calls another one is made twice next to its source, and then into another directory
where its module is new. -/
theorem modules_made_once_caller :
    let s := (Session.fresh {} "/p" oneTestcase).after [⟨caller "b.json", "/p/a.json", none⟩]
    let more : List Order := [⟨caller "b.json", "/p/x/../a.json", none⟩,
      ⟨caller "b.json", "/p/a.json", some "/out"⟩]
    '/' ∉ ({} : Settings).generatedSuffix.toList ∧
      s.made.map (fun entry => entry.1.text) = ["/p/b_test.py", "/p/a_test.py"] ∧
      (s.course more).filterMap (fun m => m.writes.map Path.text) = ["/out/a_test.py"] ∧
      s.made.Pairwise (fun entry other => ¬ entry.1.same other.1) ∧
      ∀ m ∈ s.course more, ∀ output, m.writes = some output →
        s.made? output = none ∧ m.session.made? output = none := by
  intro s more
  obtain ⟨hdistinct, -, ⟨-, hwrites⟩, -⟩ := modules_made_once {} "/p" oneTestcase (by decide)
    [⟨caller "b.json", "/p/a.json", none⟩] more
  refine ⟨by decide, by decide +kernel, by decide +kernel, hdistinct, hwrites⟩

end TestScribe
