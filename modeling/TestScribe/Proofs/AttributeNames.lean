/-
# Names that documents give

A module takes some names from its document without quotes: the marks that decorate its test, the comparators of the
calls that compare, and the methods of its requests.  All of them are ASCII identifiers, and no method that is called is
a reserved word.  A mark may well be one, as reading it asks for an identifier only.

* `IsAsciiName`, `IsAttributeName` : ASCII identifiers, and those that are not reserved;
* `isAsciiName_of_isIdentifier`, `isAttributeName_assert` : names that are read, and comparators in calls;
* `Step.isAttributeName_calls`, `Config.isAttributeName_calls` : the methods that chains call;
* `attribute_names_of_document` : the names that a module takes from its document.
-/
import TestScribe.Proofs.LegalNames
import TestScribe.Proofs.LineStructure

namespace TestScribe

open Except

/-! ## Names -/

/-- An identifier of ASCII characters only. -/
structure IsAsciiName (s : String) : Prop extends IsLegalName s where
  ascii : s.toList.all (·.toNat < 0x80) = true

instance (s : String) : Decidable (IsAsciiName s) :=
  decidable_of_iff (IsLegalName s ∧ s.toList.all (·.toNat < 0x80) = true)
    ⟨fun h => ⟨h.1, h.2⟩, fun h => ⟨h.toIsLegalName, h.ascii⟩⟩

/-- The words that Python keeps for itself. -/
def reservedWords : List String :=
  ["False", "None", "True", "and", "as", "assert", "async", "await", "break", "class", "continue", "def", "del", "elif",
    "else", "except", "finally", "for", "from", "global", "if", "import", "in", "is", "lambda", "nonlocal", "not", "or",
    "pass", "raise", "return", "try", "while", "with", "yield"]

/-- A name that can stand behind a dot. -/
structure IsAttributeName (s : String) : Prop extends IsAsciiName s where
  free : s ∉ reservedWords

instance (s : String) : Decidable (IsAttributeName s) :=
  decidable_of_iff (IsAsciiName s ∧ s ∉ reservedWords) ⟨fun h => ⟨h.1, h.2⟩, fun h => ⟨h.toIsAsciiName, h.free⟩⟩

theorem bounds_of_isAlpha {c : Char} (h : c.isAlpha = true) : 0x41 ≤ c.toNat ∧ c.toNat < 0x80 := by
  simp only [Char.isAlpha, Char.isUpper, Char.isLower, Bool.or_eq_true, Bool.and_eq_true, decide_eq_true_eq, ge_iff_le,
    UInt32.le_iff_toNat_le, Char.reduceVal, UInt32.reduceToNat] at h
  rw [← Char.toNat_val]
  omega

/-- What an identifier goes on with is an ASCII character of a word. -/
theorem bounds_of_continuesName {c : Char} (h : Literal.continuesName c = true) :
    isWordChar c = true ∧ c.toNat < 0x80 := by
  rw [Literal.continuesName, Bool.or_eq_true, beq_iff_eq] at h
  rcases h with h | rfl
  · refine ⟨by simp [isWordChar, h], ?_⟩
    rw [Char.isAlphanum, Bool.or_eq_true] at h
    rcases h with h | h
    · exact (bounds_of_isAlpha h).2
    · simp only [Char.isDigit, Bool.and_eq_true, decide_eq_true_eq, ge_iff_le, UInt32.le_iff_toNat_le, Char.reduceVal,
        UInt32.reduceToNat] at h
      rw [← Char.toNat_val]
      omega
  · decide

theorem isDigit_of_startsName {c : Char} (h : Literal.startsName c = true) : Text.isDigit c = false := by
  rw [Literal.startsName, Bool.or_eq_true, beq_iff_eq] at h
  rcases h with h | rfl
  · have hbound := (bounds_of_isAlpha h).1
    simp only [Text.isDigit, Bool.and_eq_false_iff, decide_eq_false_iff_not, Char.le_def, UInt32.le_iff_toNat_le,
      Char.reduceVal, UInt32.reduceToNat, Char.toNat_val]
    omega
  · decide

/-- A text that is read as a name is an identifier of ASCII characters. -/
theorem isAsciiName_of_isIdentifier {s : String} (h : Literal.isIdentifier s = true) : IsAsciiName s := by
  have hall : ∀ c ∈ s.toList, isWordChar c = true ∧ c.toNat < 0x80 :=
    fun c hc => bounds_of_continuesName (Literal.continuesName_of_isIdentifier h c hc)
  unfold Literal.isIdentifier at h
  split at h
  · cases h
  · next first rest hchars =>
    rw [Bool.and_eq_true] at h
    refine ⟨⟨?_, ?_, List.all_eq_true.2 fun c hc => (hall c hc).1⟩, List.all_eq_true.2 fun c hc => ?_⟩
    · rintro rfl
      cases hchars
    · rw [hchars]
      exact isDigit_of_startsName h.1
    · exact decide_eq_true (hall c hc).2

/-- No reserved word begins like the calls that compare. -/
theorem isAttributeName_assert {method : String} (h : IsAsciiName method) : IsAttributeName ("assert_" ++ method) := by
  have hlegal : IsLegalName ("assert_" ++ method) := IsLegalName.append (by decide) h.chars
  refine ⟨⟨hlegal, ?_⟩, ?_⟩
  · rw [String.toList_append, List.all_append, h.ascii]
    rfl
  · have hother : ∀ word ∈ reservedWords, ¬ "assert_".toList <+: word.toList := by decide
    intro hmem
    apply hother _ hmem
    rw [String.toList_append]
    exact List.prefix_append _ _

/-! ## Calls -/

theorem Call.isAttributeName_given {α : Type} {method : String} (h : IsAttributeName method) (arguments : α → String)
    (part : Option α) : ∀ c ∈ given method arguments part, IsAttributeName c.method := by
  cases part with
  | none => exact fun _ hc => absurd hc List.not_mem_nil
  | some a => exact List.forall_mem_singleton.2 h

/-- What is called for a configuration can stand behind a dot. -/
theorem Config.isAttributeName_calls (config : Config) : ∀ c ∈ config.calls, IsAttributeName c.method := by
  simp only [Config.calls, List.forall_mem_append]
  refine ⟨⟨⟨?_, ?_⟩, ?_⟩, ?_⟩
  · split
    · simp
    · exact List.forall_mem_singleton.2 (show IsAttributeName "variables" by decide)
  all_goals exact Call.isAttributeName_given (by decide) _ _

/-- So can what is called for a request. -/
theorem Request.isAttributeName_calls (r : Request) : ∀ c ∈ r.calls, IsAttributeName c.method := by
  have hmethod : IsAttributeName r.method.call := by cases r.method <;> decide
  simp only [Request.calls, List.forall_mem_append, List.forall_mem_singleton]
  refine ⟨⟨⟨⟨⟨⟨⟨⟨⟨hmethod, ?_⟩, ?_⟩, ?_⟩, ?_⟩, ?_⟩, ?_⟩, ?_⟩, ?_⟩, ?_⟩
  all_goals exact Call.isAttributeName_given (by decide) _ _

/-- So can what is called for hooks. -/
theorem Hook.isAttributeName_calls (time : HookTime) (hooks : Option (List Hook)) :
    ∀ c ∈ Hook.calls time hooks, IsAttributeName c.method := by
  have htime : IsAttributeName (time.text ++ "_hook") := by cases time <;> decide
  rw [Hook.calls, List.forall_mem_map]
  intro hook _
  cases hook with
  | expression => exact htime
  | binding => exact htime

/-- So can what is called for an extraction. -/
theorem Extraction.isAttributeName_call (entry : String × Extraction) :
    IsAttributeName (Extraction.call entry).method := by
  obtain ⟨var, extraction⟩ := entry
  cases extraction with
  | regex => exact (show IsAttributeName "with_regex" by decide)
  | path => exact (show IsAttributeName "with_jmespath" by decide)

namespace Step

variable {s : Step}

theorem isAttributeName_actionCalls {calls : List Call} (h : s.actionCalls = .ok calls) :
    ∀ c ∈ calls, IsAttributeName c.method := by
  unfold Step.actionCalls at h
  split at h
  · cases h
    exact Request.isAttributeName_calls _
  · cases h
    exact List.forall_mem_singleton.2 (show IsAttributeName "call" by decide)
  · cases h

variable (hmethods : ∀ {vs}, s.validate = some vs → ∀ v ∈ vs, Literal.isIdentifier v.method = true)

include hmethods

/-- So can the comparators of checks, if they are identifiers. -/
theorem isAttributeName_callsAfter : ∀ c ∈ s.callsAfter, IsAttributeName c.method := by
  simp only [Step.callsAfter, List.forall_mem_append]
  refine ⟨⟨⟨Hook.isAttributeName_calls _ _, ?_⟩, Call.isAttributeName_given (by decide) _ _⟩, ?_⟩
  · cases s.extract with
    | none => exact fun _ hc => absurd hc List.not_mem_nil
    | some entries =>
      rw [extractCalls, List.forall_mem_cons, List.forall_mem_map]
      exact ⟨by decide, fun entry _ => Extraction.isAttributeName_call entry⟩
  · cases hvalidate : s.validate with
    | none => exact fun _ hc => absurd hc List.not_mem_nil
    | some vs =>
      rw [validateCalls, List.forall_mem_cons, List.forall_mem_map]
      refine ⟨by decide, fun v hv => ?_⟩
      exact isAttributeName_assert (isAsciiName_of_isIdentifier (hmethods hvalidate v hv))

/-- What the chain of a step calls are attributes, if its comparators are names. -/
theorem isAttributeName_calls {calls : List Call} (h : s.calls = .ok calls) :
    ∀ c ∈ calls, IsAttributeName c.method := by
  obtain ⟨action, haction, rfl⟩ := map_eq_ok.1 h
  simp only [callsBefore, List.forall_mem_append]
  exact ⟨⟨⟨Call.isAttributeName_given (by decide) _ _, Hook.isAttributeName_calls _ _⟩,
    isAttributeName_actionCalls haction⟩, isAttributeName_callsAfter hmethods⟩

end Step

/-! ## Modules -/

/-- Resolving calls keeps the comparators. -/
theorem Resolves.exists_validate {found : String → Made → String → Prop} {imports imports' : List Import}
    {steps steps' : List Step} (h : Resolves found imports steps steps' imports') :
    ∀ step' ∈ steps', ∃ step ∈ steps, step'.validate = step.validate := by
  induction h with
  | nil => simp
  | cons hstep _ ih =>
    rw [List.forall_mem_cons]
    refine ⟨⟨_, List.mem_cons_self, ?_⟩, fun step' hstep' => ?_⟩
    · cases hstep with
      | keep => rfl
      | call => rfl
    · obtain ⟨step, hmem, hvalidate⟩ := ih step' hstep'
      exact ⟨step, List.mem_cons_of_mem _ hmem, hvalidate⟩

/-- The text of a module is that of a script. -/
theorem Make.exists_script_of_compile {testcase : Testcase} {className text : String} {imports : List Import}
    {s t : Session} (h : compile testcase className imports s = .ok text t) :
    ∃ settings below result, script settings testcase className imports below = .ok result ∧ text = result.render := by
  have hcompile : Ensures (compile testcase className imports) s (fun text _ => ∃ settings below result,
      script settings testcase className imports below = .ok result ∧ text = result.render) fun _ => True := by
    refine Ensures.bind (Ensures.of_forall (fun _ _ => trivial) fun _ => trivial) fun below t (_ : True) => ?_
    refine .bind .get ?_
    rintro _ u ⟨rfl, rfl⟩
    refine .bind (ensures_ofExcept.mono (fun _ _ h => h.2) fun _ _ => trivial) fun result u hresult => ?_
    exact .pure ⟨_, below, result, hresult, rfl⟩
  exact hcompile.ok h

/-- Names from documents.  Let a document be read as a testcase, its calls be resolved and the module be compiled.
* Every mark is an ASCII identifier.
* In the configuration and in every step, what is called can stand behind a dot: the request methods, the comparators
  with what goes before them, and the rest.
* All marks can stand behind a dot as well exactly if none of them is a reserved word. -/
theorem attribute_names_of_document {raw : Value} {source : Path} {testcase : Testcase}
    {found : String → Made → String → Prop}
    {steps : List Step} {imports : List Import} {className text : String} {s t : Session}
    (hread : (Legacy.normalize raw >>= (Testcase.ofDocument · source)) = .ok testcase)
    (hresolves : Resolves found [] testcase.steps steps imports)
    (hcompile : Make.compile { testcase with steps } className imports s = .ok text t) :
    ∃ script : Script, text = script.render ∧
      (script.marks = testcase.config.marks.getD [] ∧ ∀ mark ∈ script.marks, IsAsciiName mark) ∧
      (script.config = "Config(" ++ Literal.double testcase.config.name ++ ")" ++ Call.chain testcase.config.calls ∧
        ∀ c ∈ testcase.config.calls, IsAttributeName c.method) ∧
      List.Forall₂ (fun step line => ∃ calls, step.calls = .ok calls ∧
        line = "Step(" ++ step.runner ++ Call.chain calls ++ ")" ∧ ∀ c ∈ calls, IsAttributeName c.method)
        steps script.steps ∧
      ((∀ mark ∈ script.marks, IsAttributeName mark) ↔ ∀ mark ∈ script.marks, mark ∉ reservedWords) := by
  obtain ⟨document, -, hread⟩ := bind_eq_ok.1 hread
  obtain ⟨⟨m, hconfig⟩, hvalues⟩ := Testcase.exists_of_ofDocument hread
  have hmarks : ∀ mark ∈ testcase.config.marks.getD [], IsAsciiName mark :=
    fun mark hmark => isAsciiName_of_isIdentifier (Config.isIdentifier_of_marks hconfig mark hmark)
  have hmethods : ∀ step ∈ steps, ∀ vs, step.validate = some vs → ∀ v ∈ vs, Literal.isIdentifier v.method = true := by
    intro step hstep vs hvs
    obtain ⟨step', hstep', hvalidate⟩ := hresolves.exists_validate step hstep
    obtain ⟨v, hv⟩ := hvalues step' hstep'
    exact (Step.isIdentifier_of_ofValue hv).1 (hvalidate ▸ hvs)
  obtain ⟨settings, below, script, hscript, rfl⟩ := Make.exists_script_of_compile hcompile
  obtain ⟨lines, hlines, rfl⟩ := Make.script_eq_ok hscript
  refine ⟨_, rfl, ⟨rfl, hmarks⟩, ⟨rfl, testcase.config.isAttributeName_calls⟩, ?_, ?_⟩
  · refine ((List.forall₂_and_left _ _).2 ⟨hmethods, mapM_eq_ok.1 hlines⟩).imp ?_
    rintro step line ⟨hstep, hline⟩
    obtain ⟨calls, hcalls, rfl⟩ := map_eq_ok.1 hline
    exact ⟨calls, hcalls, rfl, Step.isAttributeName_calls (hstep _) hcalls⟩
  · exact ⟨fun h mark hmark => (h mark hmark).free, fun h mark hmark => ⟨hmarks mark hmark, h mark hmark⟩⟩

/-- A document with some marks, whose step has a method with a long s in it, and a reserved word for a comparator. -/
def markedDocument (marks : List String) : Value :=
  .mapping [("config", .mapping [("name", .text "a"), ("marks", .list (marks.map .text))]),
    ("teststeps", .list [.mapping [("name", .text "one"),
      ("request", .mapping [("method", .text "po\u017Ft"), ("url", .text "/")]),
      ("validate", .list [.mapping [("class", .list [.text "status_code", .text "x"])]])]])]

def markedTestcase (marks : List String) : Testcase where
  config := ⟨"a", [], none, none, none, none, some marks, none, .ofString "/p/a.json"⟩
  steps := [⟨"one", none, none, none, none, none, some [⟨"class", "status_code", .text "x", ""⟩],
    .request ⟨.post, "/", none, none, none, none, none, none, none, none, none⟩⟩]

/-- A session in a project without files. -/
def bareProject : Session where
  settings := {}
  locator := .fixed (.ofString "/p")
  disk := ⟨[], [], []⟩

/-- Marks that are identifiers, next to a comparator that is a reserved word. -/
theorem attribute_names_of_document_marked :
    let testcase := markedTestcase ["slow", "Class_1"]
    (Legacy.normalize (markedDocument ["slow", "Class_1"]) >>= (Testcase.ofDocument · (.ofString "/p/a.json")))
        = .ok testcase ∧
      ∃ script : Script, Make.compile testcase "A" [] bareProject = .ok script.render bareProject ∧
        script.marks = ["slow", "Class_1"] ∧ (∀ mark ∈ script.marks, IsAttributeName mark) ∧
        List.Forall₂ (fun step line => ∃ calls, step.calls = .ok calls ∧
          line = "Step(" ++ step.runner ++ Call.chain calls ++ ")" ∧ ∀ c ∈ calls, IsAttributeName c.method)
          testcase.steps script.steps := by
  intro testcase
  have hread : (Legacy.normalize (markedDocument ["slow", "Class_1"])
      >>= (Testcase.ofDocument · (.ofString "/p/a.json"))) = .ok testcase := rfl
  obtain ⟨text, hcompile⟩ : ∃ text, Make.compile testcase "A" [] bareProject = .ok text bareProject := ⟨_, rfl⟩
  have hresolves : Resolves (fun _ _ _ => False) [] testcase.steps testcase.steps [] :=
    .cons (.keep (by simp)) (.nil _)
  obtain ⟨script, rfl, ⟨hmarks, -⟩, -, hsteps, hfree⟩ := attribute_names_of_document hread hresolves hcompile
  refine ⟨hread, script, hcompile, hmarks, hfree.2 ?_, hsteps⟩
  rw [hmarks]
  decide

/-- Not all names that a module takes from its document can stand behind a dot. -/
theorem attribute_names_not_always_free :
    ¬ ∀ (raw : Value) (source : Path) (testcase : Testcase) (className text : String) (s t : Session),
      (Legacy.normalize raw >>= (Testcase.ofDocument · source)) = .ok testcase →
      Make.compile testcase className [] s = .ok text t →
      ∀ mark ∈ testcase.config.marks.getD [], IsAttributeName mark := by
  intro h
  have hclass := h (markedDocument ["class"]) (.ofString "/p/a.json") (markedTestcase ["class"]) "A" _ bareProject
    bareProject rfl rfl "class" (by decide)
  exact absurd hclass (by decide)

end TestScribe
