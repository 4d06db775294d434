/-
# Call chains

Testcases as Python source: a configuration or a step is an expression followed by a chain of method
calls, one for each part that is given.  A part that is left out gives no call.

* `Call` : one call of a chain;
* `Config.calls`, `Request.calls`, `Step.calls` : the calls in order;
* `Config.chain`, `Request.chain`, `Step.chain` : the source text.
-/
import TestScribe.Testcase

namespace TestScribe

/-- A method call: the method's name, and its arguments as source text. -/
structure Call where
  method : String
  arguments : String
deriving DecidableEq, Repr

namespace Call

/-- The source text of a call. -/
def text (c : Call) : String := "." ++ c.method ++ "(" ++ c.arguments ++ ")"

/-- The source text of calls one after the other. -/
def chain : List Call → String
  | [] => ""
  | c :: rest => c.text ++ chain rest

/-- The call for a part that may be left out. -/
def given {α : Type} (method : String) (arguments : α → String) : Option α → List Call
  | none => []
  | some a => [⟨method, arguments a⟩]

/-- Keyword arguments from a mapping. -/
def keywords (m : Mapping) : String := "**" ++ Literal.mapping m

/-- Arguments from a list of texts. -/
def positionals (items : List String) : String := "*" ++ Literal.texts items

end Call

/-! ## Configuration -/

namespace Config

/-- The calls of a configuration; variables are called for only if there are any. -/
def calls (c : Config) : List Call :=
  (if c.bindings.isEmpty then [] else [⟨"variables", Call.keywords c.bindings⟩])
    ++ Call.given "base_url" Literal.double c.baseUrl
    ++ Call.given "verify" Literal.bool c.verify
    ++ Call.given "export" Call.positionals c.exports

/-- The source text of a configuration. -/
def chain (c : Config) : String :=
  "Config(" ++ Literal.double c.name ++ ")" ++ Call.chain c.calls

end Config

/-! ## Requests -/

namespace Request

/-- The calls of a request. -/
def calls (r : Request) : List Call :=
  [⟨r.method.call, Literal.double r.url⟩]
    ++ Call.given "with_params" Call.keywords r.params
    ++ Call.given "with_headers" Call.keywords r.headers
    ++ Call.given "with_cookies" Call.keywords r.cookies
    ++ Call.given "with_data" Literal.body r.data
    ++ Call.given "with_json" Literal.body r.json
    ++ Call.given "set_timeout" Literal.number r.timeout
    ++ Call.given "set_verify" Literal.bool r.verify
    ++ Call.given "set_allow_redirects" Literal.bool r.allowRedirects
    ++ Call.given "upload" Call.keywords r.upload

/-- The source text of a request's calls. -/
def chain (r : Request) : String := Call.chain r.calls

end Request

/-! ## Steps -/

/-- The call for a hook. -/
def Hook.call (time : HookTime) : Hook → Call
  | .expression expr => ⟨time.text ++ "_hook", Literal.double expr⟩
  | .binding var expr => ⟨time.text ++ "_hook", Literal.double expr ++ ", " ++ Literal.double var⟩

/-- The calls for the hooks of a step. -/
def Hook.calls (time : HookTime) (hooks : Option (List Hook)) : List Call :=
  (hooks.getD []).map (Hook.call time)

/-- The call that extracts a variable. -/
def Extraction.call : String × Extraction → Call
  | (var, .regex pattern) => ⟨"with_regex", Literal.single pattern ++ ", " ++ Literal.single var⟩
  | (var, .path expr) => ⟨"with_jmespath", Literal.single expr ++ ", " ++ Literal.single var⟩

namespace Validator

/-- A check in double quotes, or in single quotes if it holds a double quote. -/
def quotedCheck (check : String) : String :=
  if check.toList.contains '"' then Literal.single check else Literal.double check

/-- The call that compares; an empty message is left out. -/
def call (v : Validator) : Call :=
  ⟨"assert_" ++ v.method,
    quotedCheck v.check ++ ", " ++ Literal.body v.expected
      ++ (if v.message = "" then "" else ", " ++ Literal.single v.message)⟩

end Validator

namespace Step

/-- The expression that a step's chain starts from. -/
def runner (s : Step) : String :=
  (if s.isCall then "RunTestCase(" else "RunRequest(") ++ Literal.double s.name ++ ")"

/-- The calls for what a step does; a testcase must be made before it can be called. -/
def actionCalls (s : Step) : Except SchemaFault (List Call) :=
  match s.action with
  | .request r => .ok r.calls
  | .call (.made name) => .ok [⟨"call", name⟩]
  | .call (.path text) => .error (.unresolved s.name text)

/-- The calls before what a step does. -/
def callsBefore (s : Step) : List Call :=
  Call.given "with_variables" Call.keywords s.bindings ++ Hook.calls .setup s.setup

/-- The calls that extract variables, after one that announces them. -/
def extractCalls : Option (List (String × Extraction)) → List Call
  | none => []
  | some entries => ⟨"extract", ""⟩ :: entries.map Extraction.call

/-- The calls that compare, after one that announces them. -/
def validateCalls : Option (List Validator) → List Call
  | none => []
  | some vs => ⟨"validate", ""⟩ :: vs.map Validator.call

/-- The calls after what a step does. -/
def callsAfter (s : Step) : List Call :=
  Hook.calls .teardown s.teardown ++ extractCalls s.extract
    ++ Call.given "export" Call.positionals s.exports ++ validateCalls s.validate

/-- The calls of a step. -/
def calls (s : Step) : Except SchemaFault (List Call) :=
  s.actionCalls.map fun action => s.callsBefore ++ action ++ s.callsAfter

/-- The source text of a step. -/
def chain (s : Step) : Except SchemaFault String :=
  s.calls.map fun calls => "Step(" ++ s.runner ++ Call.chain calls ++ ")"

end Step

end TestScribe
