/-
# The testcase schema

Testcases from documents in the current shape.  Fields are checked in a fixed order, and the first
that does not fit is reported.

* `Field` : fields of a mapping that must have a certain kind;
* `Config.ofMapping`, `Step.ofValue`, `Request.ofValue` : the parts of a testcase;
* `Testcase.ofDocument` : a whole testcase.
-/
import TestScribe.Legacy
import TestScribe.Testcase
import TestScribe.Text.Case

namespace TestScribe

/-! ## Fields -/

namespace Field

/-- A text that must be there. -/
def text (place : Place) (key : String) (m : Mapping) : Except SchemaFault String :=
  match Mapping.get? key m with
  | some (.text s) => .ok s
  | some v => .error (.field place key (.notText v))
  | none => .error (.field place key .missing)

/-- A text that may be left out. -/
def text? (place : Place) (key : String) (m : Mapping) : Except SchemaFault (Option String) :=
  match Mapping.get? key m with
  | some (.text s) => .ok (some s)
  | some v => .error (.field place key (.notText v))
  | none => .ok none

/-- A truth value that may be left out. -/
def bool? (place : Place) (key : String) (m : Mapping) : Except SchemaFault (Option Bool) :=
  match Mapping.get? key m with
  | some (.bool b) => .ok (some b)
  | some v => .error (.field place key (.notBool v))
  | none => .ok none

/-- A mapping that may be left out. -/
def mapping? (place : Place) (key : String) (m : Mapping) : Except SchemaFault (Option Mapping) :=
  match Mapping.get? key m with
  | some (.mapping n) => .ok (some n)
  | some v => .error (.field place key (.notMapping v))
  | none => .ok none

/-- An item of a list of texts. -/
def item (place : Place) (key : String) : Value → Except SchemaFault String
  | .text s => .ok s
  | v => .error (.field place key (.itemNotText v))

/-- A list of texts that may be left out. -/
def texts? (place : Place) (key : String) (m : Mapping) :
    Except SchemaFault (Option (List String)) :=
  match Mapping.get? key m with
  | some (.list vs) => (vs.mapM (item place key)).map some
  | some v => .error (.field place key (.notList v))
  | none => .ok none

end Field

/-! ## Configuration -/

namespace Config

/-- Why a testcase is skipped: true gives no reason, and a mapping may hold one. -/
def skipOf : Option Value → Except SchemaFault (Option String)
  | none | some .null | some (.bool false) => .ok none
  | some (.bool true) => .ok (some "")
  | some (.text reason) => .ok (some reason)
  | some (.mapping m) => .ok (some (((Mapping.get? "reason" m).bind Value.text?).getD ""))
  | some v => .error (.configSkip v)

/-- The parameters of a testcase. -/
def parametersOf : Option Value → Except SchemaFault (Option Mapping)
  | none | some .null => .ok none
  | some (.mapping m) => .ok (some m)
  | some v => .error (.configParameters v)

/-- The marks of a testcase, each of which must be a name. -/
def marksOf (m : Mapping) : Except SchemaFault (Option (List String)) := do
  let marks ← Field.texts? .config "marks" m
  match (marks.getD []).find? (fun mark => !Literal.isIdentifier mark) with
  | some mark => .error (.configMark mark)
  | none => .ok marks

/-- The configuration that a mapping describes, of the document at `source`. -/
def ofMapping (m : Mapping) (source : Path) : Except SchemaFault Config := do
  let name ← Field.text .config "name" m
  let bindings ← Legacy.bindings ((Mapping.get? "variables" m).getD .null)
  let skip ← skipOf (Mapping.get? "skip" m)
  let parameters ← parametersOf (Mapping.get? "parameters" m)
  let marks ← marksOf m
  let baseUrl ← Field.text? .config "base_url" m
  let verify ← Field.bool? .config "verify" m
  let exports ← Field.texts? .config "export" m
  return { name, bindings, baseUrl, verify, exports, skip, marks, parameters, source }

end Config

/-! ## Requests -/

namespace Request

/-- The method of a request, in whatever case it is written. -/
def methodOf (place : Place) (m : Mapping) : Except SchemaFault Method := do
  let name := Text.upper (← Field.text place "method" m)
  match Method.ofName? name with
  | some method => .ok method
  | none => .error (.requestMethod place name)

/-- The timeout of a request, which is a number. -/
def timeoutOf (place : Place) : Option Value → Except SchemaFault (Option Number)
  | none => .ok none
  | some (.number n) => .ok (some n)
  | some v => .error (.requestTimeout place v)

/-- The request that a value describes. -/
def ofValue (place : Place) (v : Value) : Except SchemaFault Request :=
  match v with
  | .mapping m => do
    let method ← methodOf place m
    let timeout ← timeoutOf place (Mapping.get? "timeout" m)
    let url ← Field.text place "url" m
    let params ← Field.mapping? place "params" m
    let headers ← Field.mapping? place "headers" m
    let cookies ← Field.mapping? place "cookies" m
    let data := Mapping.get? "data" m
    let json := Mapping.get? "json" m
    let verify ← Field.bool? place "verify" m
    let allowRedirects ← Field.bool? place "allow_redirects" m
    let upload ← Field.mapping? place "upload" m
    return { method, url, params, headers, cookies, data, json, timeout, verify, allowRedirects,
             upload }
  | v => .error (.request place v)

end Request

/-! ## Steps -/

namespace Hook

/-- The hook that a value describes: an expression, or a mapping from one variable to an expression. -/
def ofValue (time : HookTime) (v : Value) : Except SchemaFault Hook :=
  match v with
  | .text expr => .ok (.expression expr)
  | .mapping [(var, .text expr)] => .ok (.binding var expr)
  | v => .error (.hook time v)

/-- The hooks of a step. -/
def listOf (time : HookTime) : Option Value → Except SchemaFault (Option (List Hook))
  | none => .ok none
  | some (.list vs) => (vs.mapM (ofValue time)).map some
  | some v => .error (.hooks time v)

end Hook

namespace Step

/-- What a step does: it sends its request unless that is null, and else calls the testcase it names. -/
def actionOf (place : Place) (m : Mapping) : Except SchemaFault Action :=
  let call : Except SchemaFault Action :=
    match Mapping.get? "testcase" m with
    | some (.text s) =>
      if s = "" then .error (.stepReference place (.text s)) else .ok (.call (.path s))
    | some v => .error (.stepReference place v)
    | none => .error (.badStep (.mapping m))
  match Mapping.get? "request" m with
  | none | some .null => call
  | some request => (Request.ofValue place request).map .request

/-- The variables of a step. -/
def variablesOf : Option Value → Except SchemaFault (Option Mapping)
  | none => .ok none
  | some v => (Legacy.bindings v).map some

/-- One extractor of a step. -/
def extractorOf (place : Place) (entry : String × Value) :
    Except SchemaFault (String × Extraction) :=
  match entry with
  | (var, .text raw) => .ok (var, Extraction.ofText raw)
  | (var, v) => .error (.stepExtractor place var v)

/-- The extractors of a step. -/
def extractOf (place : Place) :
    Option Value → Except SchemaFault (Option (List (String × Extraction)))
  | none => .ok none
  | some (.mapping m) => (m.mapM (extractorOf place)).map some
  | some v => .error (.stepExtract place v)

/-- The validators of a step. -/
def validateOf (place : Place) : Option Value → Except SchemaFault (Option (List Validator))
  | none => .ok none
  | some (.list vs) => (vs.mapM Validator.ofValue).map some
  | some v => .error (.stepValidate place v)

/-- The step that a value describes. -/
def ofValue (v : Value) : Except SchemaFault Step :=
  match v with
  | .mapping m => do
    let name ← Field.text .step "name" m
    let place := Place.stepNamed name
    let action ← actionOf place m
    let bindings ← variablesOf (Mapping.get? "variables" m)
    let extract ← extractOf place (Mapping.get? "extract" m)
    let validate ← validateOf place (Mapping.get? "validate" m)
    let setup ← Hook.listOf .setup (Mapping.get? "setup_hooks" m)
    let teardown ← Hook.listOf .teardown (Mapping.get? "teardown_hooks" m)
    let exports ← Field.texts? place "export" m
    return { name, bindings, setup, teardown, extract, exports, validate, action }
  | v => .error (.badStep v)

end Step

/-! ## Testcases -/

namespace Testcase

/-- The testcase that a document in the current shape describes; `source` is where it comes from. -/
def ofDocument (document : Mapping) (source : Path) : Except SchemaFault Testcase :=
  match Mapping.get? "config" document with
  | some (.mapping m) => do
    let config ← Config.ofMapping m source
    match Mapping.get? "teststeps" document with
    | some (.list vs) => return { config, steps := ← vs.mapM Step.ofValue }
    | _ => .error .missingSteps
  | _ => .error .missingConfig

end Testcase

end TestScribe
