/-
# What a record says

Every record of a log tells what its module was made of, whichever way the project root is found: where the
module went and for which output directory, how the calls of its testcase were resolved, and which script
was written.  This is said once, as an invariant of the log, and what is true of all modules follows from it.

* `Supplied` : a class with its dotted name, as a log supplies it;
* `Origin` : what a module was made of, `Logged` : every record of a log has an origin;
* `logged_after` : this is so after any orders.
-/
import TestScribe.Proofs.Stepwise
import TestScribe.Proofs.Writing

namespace TestScribe

/-! ## Origins -/

section Origin

variable (settings : Settings) (locator : Locator) (sent : Path → Option Path → Prop)

/-- A log supplies a class with its dotted name: it has the module, at the path of which the name is made. -/
def Supplied (log : List Record) (made : Made) (name : String) : Prop :=
  ∃ q ∈ log, q.entry.2 = made ∧ ∃ output root, q.output.same output ∧
    Naming.IsGenerated settings.generatedSuffix output ∧ Naming.moduleName root output = .ok name

/-- What a module was made of, where `sent` says to which output directory a source may go.  What is known
about paths is known where the root is fixed. -/
structure Origin (log : List Record) (r : Record) : Prop where
  normal : r.source.normalize = r.source
  plain : ∀ root, locator = .fixed root → root.IsPlain → r.source.IsPlain
  className : ∃ stem, r.className = Naming.className stem
  placed : ∃ outputDirectory, sent r.source outputDirectory ∧ ∀ root, locator = .fixed root →
    Naming.placedIn root settings.generatedSuffix r.source outputDirectory = .ok (r.output, r.className)
  endsIn : ∃ name, r.output.EndsIn name
  written : ∃ steps below, Resolves (fun _ => Supplied settings log) [] r.testcase.steps steps r.imports ∧
    Make.script settings { r.testcase with steps } r.className r.imports below = .ok r.script ∧
    ∀ root, locator = .fixed root → Naming.relative root r.source = .ok below

/-- Every record of a log has an origin, and all that the session has made is in the log. -/
structure Logged (c : Chronicle) : Prop where
  origins : ∀ r ∈ c.log, Origin settings locator sent c.log r
  made : ∀ entry ∈ c.session.made, ∃ r ∈ c.log, r.entry.2 = entry.2 ∧ r.output.same entry.1
  settings : c.session.settings = settings
  locator : c.session.locator = locator

end Origin

section Logged

variable {settings : Settings} {locator : Locator} {sent : Path → Option Path → Prop}
  {c c' c'' : Chronicle} {log log' : List Record} {r : Record}

theorem Supplied.mono (h : log <+: log') {made : Made} {name : String}
    (hsupplied : Supplied settings log made name) : Supplied settings log' made name := by
  obtain ⟨q, hq, hrest⟩ := hsupplied
  exact ⟨q, h.subset hq, hrest⟩

theorem Origin.mono (h : log <+: log') (hr : Origin settings locator sent log r) :
    Origin settings locator sent log' r := by
  obtain ⟨steps, below, hresolves, hscript⟩ := hr.written
  exact { hr with written := ⟨steps, below, hresolves.mono fun _ _ _ => .mono h, hscript⟩ }

/-- A record with an origin is added. -/
theorem Logged.add (h : Logged settings locator sent c) (hr : Origin settings locator sent c.log r) (d : Disk) :
    Logged settings locator sent (c.added r d) where
  settings := h.settings
  locator := h.locator
  made := by
    intro entry hentry
    rcases Made.mem_put hentry with hentry | ⟨hsame, hmade⟩
    · obtain ⟨q, hq, hkept⟩ := h.made entry hentry
      exact ⟨q, List.mem_append_left _ hq, hkept⟩
    · rw [Path.same_iff] at hsame
      exact ⟨r, List.mem_append_right _ List.mem_cons_self, hmade.symm, Path.same_iff.2 hsame.symm⟩
  origins := by
    intro q hq
    have hlog : c.log <+: c.log ++ [r] := List.prefix_append _ _
    rcases List.mem_append.1 hq with hq | hq
    · exact (h.origins q hq).mono hlog
    · obtain rfl := List.mem_singleton.1 hq
      exact hr.mono hlog

/-- What the session finds at a path, the log has there. -/
theorem Logged.exists_of_made? (h : Logged settings locator sent c) {output : Path} {made : Made}
    (hmade : c.session.made? output = some made) :
    ∃ q ∈ c.log, q.entry.2 = made ∧ q.output.same output = true := by
  obtain ⟨p, hp, hsame⟩ := Session.exists_mem_of_made? hmade
  obtain ⟨q, hq, hentry, hspelled⟩ := h.made _ hp
  rw [Path.same_iff] at hspelled hsame
  exact ⟨q, hq, hentry, Path.same_iff.2 (hspelled.trans hsame)⟩

/-! ## Steps of a run -/

/-- A module that is written has an origin. -/
theorem Logged.origin (h : Logged settings locator sent c) {G : Path → Path → Prop}
    {outputDirectory : Option Path} (hr : Composed G (fun _ => Supplied settings c.log) c r outputDirectory)
    (hnormal : r.source.normalize = r.source)
    (hplain : ∀ root, locator = .fixed root → root.IsPlain → r.source.IsPlain)
    (hsent : sent r.source outputDirectory) (hend : ∃ name, r.output.EndsIn name) :
    Origin settings locator sent c.log r := by
  obtain ⟨root, stemRoot, tidied, -, -, hplaced⟩ := hr.placed
  obtain ⟨steps, below, hresolves, hscript, -, hbelow⟩ := hr.resolved
  have hfixed := hr.fixed
  rw [h.locator] at hbelow hfixed
  rw [h.settings] at hscript hfixed
  refine ⟨hnormal, hplain, ⟨tidied.stem?.getD "", ?_⟩, ⟨outputDirectory, hsent, hfixed⟩, hend, steps, below,
    hresolves, hscript, hbelow⟩
  rw [show r.className = (r.output, r.className).2 from rfl, hplaced]
  unfold Naming.sentTo
  split <;> rfl

/-- Every step of a run keeps the origins, and the log goes on. -/
theorem stepwise_logged (hsent : ∀ p, sent p none) :
    Stepwise (fun _ => True) (fun _ p outputDirectory => p.normalize = p ∧
        (∀ root, locator = .fixed root → root.IsPlain → p.IsPlain) ∧ sent p outputDirectory)
      (Logged settings locator sent) (fun c c' => c.log <+: c'.log) (fun _ _ => True)
      fun c _ => Supplied settings c.log where
  refl _ := List.prefix_rfl
  trans := List.IsPrefix.trans
  source _ h := h
  opened {c p content} hc hnormal _ hfixed := by
    refine ⟨hnormal, fun root hroot hplain => ?_, hsent p⟩
    obtain ⟨raw, rfl⟩ := hfixed root (hc.locator.trans hroot)
    exact isPlain_referenced hplain raw
  found _ _ := trivial
  finds {c raw output root made name} hc hanswers hname _ := by
    obtain ⟨q, hq, hentry, hsame⟩ := hc.exists_of_made? hanswers.found
    exact ⟨q, hq, hentry, output, root, hsame, hc.settings ▸ hanswers.generated, hname⟩
  findsLater hR h := h.mono hR
  still hc ht := ⟨⟨hc.origins, ht.made ▸ hc.made, ht.settings.trans hc.settings, ht.locator.trans hc.locator⟩,
    List.prefix_rfl⟩
  failed hc _ _ _ _ := ⟨⟨hc.origins, hc.made, hc.settings, hc.locator⟩, List.prefix_rfl⟩
  built {c r outputDirectory d depth} hc hsource hr _ hrun :=
    ⟨hc.add (hc.origin hr hsource.1 hsource.2.1 hsource.2.2 (Emission.file_of_emit_eq_ok hrun).2.1) d,
      List.prefix_append _ _⟩

end Logged

/-! ## Orders -/

/-- A source goes next to itself, or to the directory of an order for it. -/
def Sent (orders : List Order) (source : Path) (outputDirectory : Option Path) : Prop :=
  outputDirectory = none ∨ ∃ o ∈ orders, (Path.ofString o.source).normalize = source ∧
    o.outputDirectory.map .ofString = outputDirectory

/-- **What every record says.**  After any orders to a session in which nothing has been made, every record
of the log has an origin. -/
theorem logged_after (settings : Settings) (locator : Locator) (disk : Disk) (orders : List Order) :
    Logged settings locator (Sent orders) (Chronicle.after ⟨{ settings, locator, disk }, []⟩ orders) := by
  have hstepwise : Stepwise _ _ (Logged settings locator (Sent orders)) _ _ _ := stepwise_logged fun _ => .inl rfl
  refine (hstepwise.after ⟨by simp, by simp, rfl, rfl⟩ fun o ho _ _ _ => ⟨fun _ _ => trivial, ?_⟩).invariant
  exact ⟨Path.normalize_normalize _, fun _ _ _ => Path.isPlain_normalize (Path.isPlain_ofString _),
    .inr ⟨o, ho, rfl, rfl⟩⟩

end TestScribe
