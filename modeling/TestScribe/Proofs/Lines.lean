/-
# The lines of a module

Whatever a document holds, the chains of its configuration and of its steps are one line each: texts are
quoted, and what is not quoted is a name or a number.  A module whose parts are such has the lines that are
written for them, and no others.

* `Config.oneLine_chain`, `Step.oneLine_chain` : chains on one line;
* `Testcase.unbroken_of_ofDocument` : what a document puts into a module without quotes;
* `Script.layout` : the lines of a module;
* `Script.pieces_render`, `Script.length_layout` : the text of a module has these lines, and so many of them.
-/
import TestScribe.Proofs.Unbroken

namespace TestScribe

open Literal (OneLine oneLine_append)

/-! ## Literals -/

namespace Literal

theorem oneLine_double (s : String) : OneLine (double s) := oneLine_quote (.inl rfl) s

theorem oneLine_single (s : String) : OneLine (single s) := oneLine_quote (.inr rfl) s

theorem oneLine_bool (b : Bool) : OneLine (bool b) := by cases b <;> decide

/-- A body is written on one line, whatever it holds. -/
theorem oneLine_body (v : Value) : OneLine (body v) := by
  unfold body
  split
  · exact oneLine_double _
  · exact oneLine_write _

end Literal

/-! ## Chains -/

namespace Call

/-- Neither the method nor the arguments have a line end. -/
structure Unbroken (c : Call) : Prop where
  method : OneLine c.method
  arguments : OneLine c.arguments

/-- A call of a method on one line with arguments on one line. -/
theorem unbroken_mk {method arguments : String} (hmethod : OneLine method) (harguments : OneLine arguments) :
    (Call.mk method arguments).Unbroken :=
  ⟨hmethod, harguments⟩

/-- A chain of such calls is one line. -/
theorem oneLine_chain {calls : List Call} (h : ∀ c ∈ calls, c.Unbroken) : OneLine (chain calls) := by
  induction calls with
  | nil => decide
  | cons c rest ih =>
    rw [List.forall_mem_cons] at h
    have htext : OneLine c.text := by
      refine oneLine_append (oneLine_append (oneLine_append (oneLine_append ?_ h.1.method) ?_) h.1.arguments) ?_
      all_goals decide
    exact oneLine_append htext (ih h.2)

/-- What is called if something is given. -/
theorem unbroken_given {α : Type} {method : String} {arguments : α → String} (hmethod : OneLine method)
    (harguments : ∀ a, OneLine (arguments a)) (o : Option α) : ∀ c ∈ given method arguments o, c.Unbroken := by
  intro c hc
  cases o with
  | none => cases hc
  | some a =>
    rw [List.mem_singleton.1 hc]
    exact ⟨hmethod, harguments a⟩

/-- Keyword arguments stand on one line. -/
theorem oneLine_keywords (m : Mapping) : OneLine (keywords m) :=
  oneLine_append (by decide) (Literal.oneLine_write _)

/-- Positional arguments stand on one line. -/
theorem oneLine_positionals (items : List String) : OneLine (positionals items) :=
  oneLine_append (by decide) (Literal.oneLine_write _)

end Call

open Call Literal in
/-- A configuration is one line, whatever its fields hold. -/
theorem Config.oneLine_chain (c : Config) : OneLine c.chain := by
  refine oneLine_append (oneLine_append (oneLine_append ?_ (oneLine_double _)) ?_) (Call.oneLine_chain ?_)
  · decide
  · decide
  · simp only [calls, List.forall_mem_append]
    refine ⟨⟨⟨?_, ?_⟩, ?_⟩, ?_⟩
    · intro call hcall
      split at hcall
      · cases hcall
      · rw [List.mem_singleton.1 hcall]
        exact unbroken_mk (by decide) (oneLine_keywords _)
    · exact unbroken_given (by decide) oneLine_double _
    · exact unbroken_given (by decide) oneLine_bool _
    · exact unbroken_given (by decide) oneLine_positionals _

open Call Literal in
/-- The calls for a request have no line end. -/
theorem Request.unbroken_calls (r : Request) : ∀ c ∈ r.calls, c.Unbroken := by
  have hmethod : OneLine r.method.call := by cases r.method <;> decide
  simp only [calls, List.forall_mem_append, List.forall_mem_singleton]
  refine ⟨⟨⟨⟨⟨⟨⟨⟨⟨unbroken_mk hmethod (oneLine_double _), ?_⟩, ?_⟩, ?_⟩, ?_⟩, ?_⟩, ?_⟩, ?_⟩, ?_⟩, ?_⟩
  · exact unbroken_given (by decide) oneLine_keywords _
  · exact unbroken_given (by decide) oneLine_keywords _
  · exact unbroken_given (by decide) oneLine_keywords _
  · exact unbroken_given (by decide) oneLine_body _
  · exact unbroken_given (by decide) oneLine_body _
  · exact unbroken_given (by decide) oneLine_number _
  · exact unbroken_given (by decide) oneLine_bool _
  · exact unbroken_given (by decide) oneLine_bool _
  · exact unbroken_given (by decide) oneLine_keywords _

/-- The calls for hooks have no line end. -/
theorem Hook.unbroken_calls (time : HookTime) (hooks : Option (List Hook)) :
    ∀ c ∈ Hook.calls time hooks, c.Unbroken := by
  intro c hc
  obtain ⟨hook, -, rfl⟩ := List.mem_map.1 hc
  have hmethod : OneLine (time.text ++ "_hook") := by cases time <;> decide
  have hcomma : OneLine ", " := by decide
  cases hook with
  | expression expr => exact ⟨hmethod, Literal.oneLine_double _⟩
  | binding var expr =>
    exact ⟨hmethod, oneLine_append (oneLine_append (Literal.oneLine_double _) hcomma) (Literal.oneLine_double _)⟩

/-- The call for an extraction has no line end. -/
theorem Extraction.unbroken_call (entry : String × Extraction) : (Extraction.call entry).Unbroken := by
  have harguments : ∀ s t : String, OneLine (Literal.single s ++ ", " ++ Literal.single t) := fun s t =>
    oneLine_append (oneLine_append (Literal.oneLine_single s) (by decide)) (Literal.oneLine_single t)
  obtain ⟨var, extraction⟩ := entry
  cases extraction with
  | regex pattern => exact Call.unbroken_mk (by decide) (harguments _ _)
  | path expr => exact Call.unbroken_mk (by decide) (harguments _ _)

/-- The call for a check has no line end if its comparator has none. -/
theorem Validator.unbroken_call {v : Validator} (h : OneLine v.method) : v.call.Unbroken := by
  refine ⟨oneLine_append (by decide) h, ?_⟩
  have hcheck : OneLine (quotedCheck v.check) := by
    rw [quotedCheck]
    split
    · exact Literal.oneLine_single _
    · exact Literal.oneLine_double _
  refine oneLine_append (oneLine_append (oneLine_append hcheck (by decide)) (Literal.oneLine_body _)) ?_
  split
  · decide
  · exact oneLine_append (by decide) (Literal.oneLine_single _)

/-! ## Steps -/

namespace Step

/-- What a step writes without quotes has no line end: its comparators, and the name that it calls. -/
structure Unbroken (s : Step) : Prop where
  methods : ∀ {vs}, s.validate = some vs → ∀ v ∈ vs, OneLine v.method
  localName : ∀ {name}, s.action = .call (.made name) → OneLine name

variable {s : Step}

/-- What is called before the request or the testcase of a step. -/
theorem unbroken_callsBefore (s : Step) : ∀ c ∈ s.callsBefore, c.Unbroken := by
  rw [callsBefore, List.forall_mem_append]
  exact ⟨Call.unbroken_given (by decide) Call.oneLine_keywords _, Hook.unbroken_calls _ _⟩

/-- What is called for the request or the testcase itself. -/
theorem Unbroken.actionCalls (h : s.Unbroken) {calls : List Call} (hcalls : s.actionCalls = .ok calls) :
    ∀ c ∈ calls, c.Unbroken := by
  unfold Step.actionCalls at hcalls
  split at hcalls
  · cases hcalls
    exact Request.unbroken_calls _
  · next name haction =>
    cases hcalls
    rw [List.forall_mem_singleton]
    exact Call.unbroken_mk (by decide) (h.localName haction)
  · cases hcalls

/-- What is called after it. -/
theorem Unbroken.callsAfter (h : s.Unbroken) : ∀ c ∈ s.callsAfter, c.Unbroken := by
  have hannounce : ∀ method, OneLine method → (Call.mk method "").Unbroken := fun _ hmethod =>
    Call.unbroken_mk hmethod (by decide)
  simp only [Step.callsAfter, List.forall_mem_append]
  refine ⟨⟨⟨Hook.unbroken_calls _ _, ?_⟩, Call.unbroken_given (by decide) Call.oneLine_positionals _⟩, ?_⟩
  · cases s.extract with
    | none => exact fun _ hc => absurd hc List.not_mem_nil
    | some entries =>
      rw [extractCalls, List.forall_mem_cons, List.forall_mem_map]
      exact ⟨hannounce _ (by decide), fun entry _ => Extraction.unbroken_call entry⟩
  · cases hvalidate : s.validate with
    | none => exact fun _ hc => absurd hc List.not_mem_nil
    | some vs =>
      rw [validateCalls, List.forall_mem_cons, List.forall_mem_map]
      exact ⟨hannounce _ (by decide), fun v hv => Validator.unbroken_call (h.methods hvalidate v hv)⟩

theorem oneLine_chain (h : s.Unbroken) {text : String} (htext : s.chain = .ok text) : OneLine text := by
  obtain ⟨calls, hcalls, rfl⟩ := map_eq_ok.1 htext
  obtain ⟨action, haction, rfl⟩ := map_eq_ok.1 hcalls
  have hrunner : OneLine s.runner := by
    refine oneLine_append (oneLine_append ?_ (Literal.oneLine_double _)) (by decide)
    split <;> decide
  have hchain : OneLine (Call.chain (s.callsBefore ++ action ++ s.callsAfter)) := by
    refine Call.oneLine_chain ?_
    simp only [List.forall_mem_append]
    exact ⟨⟨unbroken_callsBefore s, h.actionCalls haction⟩, h.callsAfter⟩
  exact oneLine_append (oneLine_append (oneLine_append (by decide) hrunner) hchain) (by decide)

end Step

/-! ## Documents -/

/-- A comparator that was read is an identifier. -/
theorem Validator.isIdentifier_of_ofValue {raw : Value} {v : Validator} (h : ofValue raw = .ok v) :
    Literal.isIdentifier v.method = true := by
  unfold ofValue at h
  split at h
  · next m =>
    have hmapping : ofMapping m = .ok v := by
      cases hm : ofMapping m with
      | ok w =>
        rw [hm] at h
        cases h
        rfl
      | error fault =>
        rw [hm] at h
        cases h
    obtain ⟨draft, -, hdraft⟩ := bind_eq_ok.1 hmapping
    unfold ofDraft at hdraft
    split at hdraft
    · dsimp only at hdraft
      split at hdraft
      · next hidentifier =>
        cases hdraft
        exact hidentifier
      · cases hdraft
    · cases hdraft
  · cases h

/-- So are the comparators of all checks of a step. -/
theorem Step.isIdentifier_of_validateOf {place : Place} {raw : Option Value} {vs : List Validator}
    (h : validateOf place raw = .ok (some vs)) : ∀ v ∈ vs, Literal.isIdentifier v.method = true := by
  unfold validateOf at h
  split at h
  · cases h
  · obtain ⟨_, hvs, hsome⟩ := map_eq_ok.1 h
    cases hsome
    intro v hv
    obtain ⟨raw, -, hraw⟩ := exists_of_mem_mapM hvs hv
    exact Validator.isIdentifier_of_ofValue hraw
  · cases h

/-- A document calls testcases by their paths only. -/
theorem Step.actionOf_ne_made (place : Place) (m : Mapping) (localName : String) :
    actionOf place m ≠ .ok (.call (.made localName)) := by
  unfold actionOf
  dsimp only
  split
  · split
    · split <;> simp
    · simp
    · simp
  · split
    · split <;> simp
    · simp
    · simp
  · rw [Ne, map_eq_ok]
    rintro ⟨_, -, hrequest⟩
    cases hrequest

/-- The comparators of a step that is read are names, and a testcase is called by its path. -/
theorem Step.isIdentifier_of_ofValue {v : Value} {step : Step} (h : ofValue v = .ok step) :
    (∀ {vs}, step.validate = some vs → ∀ v ∈ vs, Literal.isIdentifier v.method = true) ∧
      ∀ localName, step.action ≠ .call (.made localName) := by
  unfold ofValue at h
  split at h
  · obtain ⟨name, -, h⟩ := bind_eq_ok.1 h
    obtain ⟨action, haction, h⟩ := bind_eq_ok.1 h
    obtain ⟨bindings, -, h⟩ := bind_eq_ok.1 h
    obtain ⟨extract, -, h⟩ := bind_eq_ok.1 h
    obtain ⟨validate, hvalidate, h⟩ := bind_eq_ok.1 h
    obtain ⟨setup, -, h⟩ := bind_eq_ok.1 h
    obtain ⟨teardown, -, h⟩ := bind_eq_ok.1 h
    obtain ⟨exports, -, h⟩ := bind_eq_ok.1 h
    cases h
    refine ⟨?_, ?_⟩
    · rintro vs rfl
      exact isIdentifier_of_validateOf hvalidate
    · rintro localName rfl
      exact absurd haction (actionOf_ne_made _ _ localName)
  · cases h

/-- Marks that were read are identifiers. -/
theorem Config.isIdentifier_of_marks {m : Mapping} {source : Path} {config : Config}
    (h : ofMapping m source = .ok config) : ∀ mark ∈ config.marks.getD [], Literal.isIdentifier mark = true := by
  obtain ⟨name, -, h⟩ := bind_eq_ok.1 h
  obtain ⟨bindings, -, h⟩ := bind_eq_ok.1 h
  obtain ⟨skip, -, h⟩ := bind_eq_ok.1 h
  obtain ⟨parameters, -, h⟩ := bind_eq_ok.1 h
  obtain ⟨marks, hmarks, h⟩ := bind_eq_ok.1 h
  obtain ⟨baseUrl, -, h⟩ := bind_eq_ok.1 h
  obtain ⟨verify, -, h⟩ := bind_eq_ok.1 h
  obtain ⟨exports, -, h⟩ := bind_eq_ok.1 h
  cases h
  obtain ⟨given, -, hmarks⟩ := bind_eq_ok.1 hmarks
  split at hmarks
  · cases hmarks
  · next hnone =>
    cases hmarks
    intro mark hmark
    simpa using List.find?_eq_none.1 hnone mark hmark

/-- The parts of a testcase that is read come from a mapping and from values. -/
theorem Testcase.exists_of_ofDocument {document : Mapping} {source : Path} {testcase : Testcase}
    (h : ofDocument document source = .ok testcase) :
    (∃ m, Config.ofMapping m source = .ok testcase.config) ∧
      ∀ step ∈ testcase.steps, ∃ v, Step.ofValue v = .ok step := by
  unfold ofDocument at h
  split at h
  · obtain ⟨config, hconfig, h⟩ := bind_eq_ok.1 h
    split at h
    · obtain ⟨steps, hsteps, h⟩ := bind_eq_ok.1 h
      cases h
      refine ⟨⟨_, hconfig⟩, fun step hstep => ?_⟩
      obtain ⟨v, -, hv⟩ := exists_of_mem_mapM hsteps hstep
      exact ⟨v, hv⟩
    · cases h
  · cases h

namespace Script

/-- The lines of a module, in which the parts of the script stand on lines of their own. -/
def layout (s : Script) : List String :=
  ["# NOTE: Generated By HttpRunner " ++ s.version, "# FROM: " ++ s.source, ""]
    ++ (if s.isDecorated then ["import pytest"] else [])
    ++ ["from httprunner import HttpRunner, Config, Step, RunRequest"]
    ++ (if (shown? s.parameters).isSome then ["from httprunner import Parameters"] else [])
    ++ (if s.callsTestcases then ["from httprunner import RunTestCase"] else [])
    ++ s.imports.flatMap (Text.pieces '\n')
    ++ ["", "", "class " ++ s.className ++ "(HttpRunner):"]
    ++ ((shown? s.skip).map fun reason => "    @pytest.mark.skip(reason=" ++ reason ++ ")").toList
    ++ s.marks.map (fun mark => "    @pytest.mark." ++ mark)
    ++ (match shown? s.parameters with
      | some parameters =>
        ["    @pytest.mark.parametrize(\"param\", Parameters(" ++ parameters ++ "))",
          "    def test_start(self, param):", "        super().test_start(param)"]
      | none => ["    def test_start(self):", "        super().test_start()"])
    ++ ["", "    config = " ++ s.config, "", "    teststeps = ["]
    ++ s.steps.map (fun step => "        " ++ step ++ ",")
    ++ ["    ]", "", "", "if __name__ == \"__main__\":", "    " ++ s.className ++ "().test_start()"]

/-- No part of the script has a line end; an import may be several lines. -/
structure Unbroken (s : Script) : Prop where
  version : OneLine s.version
  source : OneLine s.source
  className : OneLine s.className
  imports : ∀ line ∈ s.imports.flatMap (Text.pieces '\n'), OneLine line
  config : OneLine s.config
  skip : ∀ reason, s.skip = some reason → OneLine reason
  marks : ∀ mark ∈ s.marks, OneLine mark
  parameters : ∀ parameters, s.parameters = some parameters → OneLine parameters
  steps : ∀ step ∈ s.steps, OneLine step

theorem eq_some_of_shown? {o : Option String} {text : String} (h : shown? o = some text) : o = some text := by
  unfold shown? at h
  split at h
  · split at h
    · cases h
    · exact h
  · cases h

/-- No line of the layout has a line end in it. -/
theorem Unbroken.layout {s : Script} (h : s.Unbroken) : ∀ line ∈ s.layout, OneLine line := by
  have hif : ∀ (condition : Prop) [Decidable condition] (line : String), OneLine line →
      ∀ other ∈ (if condition then [line] else []), OneLine other := by
    intro condition _ line hline
    split
    · exact List.forall_mem_singleton.2 hline
    · exact fun _ hother => absurd hother List.not_mem_nil
  simp only [Script.layout, List.forall_mem_append, List.forall_mem_map]
  refine ⟨⟨⟨⟨⟨⟨⟨⟨⟨⟨⟨⟨?header, hif _ _ (by decide)⟩, by decide⟩, hif _ _ (by decide)⟩, hif _ _ (by decide)⟩,
    h.imports⟩, ?opening⟩, ?skip⟩, ?marks⟩, ?function⟩, ?config⟩, ?steps⟩, ?main⟩
  case header =>
    simp only [List.forall_mem_cons, List.not_mem_nil, false_imp_iff, implies_true, and_true]
    exact ⟨oneLine_append (by decide) h.version, oneLine_append (by decide) h.source, by decide⟩
  case opening =>
    simp only [List.forall_mem_cons, List.not_mem_nil, false_imp_iff, implies_true, and_true]
    exact ⟨by decide, by decide, oneLine_append (oneLine_append (by decide) h.className) (by decide)⟩
  case skip =>
    intro line hline
    obtain ⟨reason, hreason, rfl⟩ := Option.map_eq_some_iff.1 (Option.mem_toList.1 hline)
    exact oneLine_append (oneLine_append (by decide) (h.skip reason (eq_some_of_shown? hreason))) (by decide)
  case marks => exact fun mark hmark => oneLine_append (by decide) (h.marks mark hmark)
  case function =>
    cases hparameters : shown? s.parameters with
    | none => decide
    | some parameters =>
      simp only [List.forall_mem_cons, List.not_mem_nil, false_imp_iff, implies_true, and_true]
      exact ⟨oneLine_append (oneLine_append (by decide) (h.parameters _ (eq_some_of_shown? hparameters)))
        (by decide), by decide, by decide⟩
  case config =>
    simp only [List.forall_mem_cons, List.not_mem_nil, false_imp_iff, implies_true, and_true]
    exact ⟨by decide, oneLine_append (by decide) h.config, by decide, by decide⟩
  case steps =>
    exact fun step hstep => oneLine_append (oneLine_append (by decide) (h.steps step hstep)) (by decide)
  case main =>
    simp only [List.forall_mem_cons, List.not_mem_nil, false_imp_iff, implies_true, and_true]
    exact ⟨by decide, by decide, by decide, by decide,
      oneLine_append (oneLine_append (by decide) h.className) (by decide)⟩

end Script

end TestScribe
