/-
# Older document shapes

Testcase documents come in several shapes: the current one with `config` and `teststeps`, a single
request with a name, and either of them with older field names and value shapes.  Normalizing gives
the current shape, in which every step is a request or a reference to another testcase.

* `Legacy.bindings`, `Legacy.extractors`, `Legacy.validators` : older value shapes;
* `Legacy.promote` : a single request as a testcase of one step;
* `Legacy.current` : a testcase with every step in the current shape;
* `Legacy.normalize` : any document in the current shape.
-/
import TestScribe.Expression

namespace TestScribe.Legacy

/-! ## Variables -/

/-- The variables of a list of mappings with one key each, merged in order. -/
def mergeVariables (done : Mapping) : List Value → Except SchemaFault Mapping
  | [] => .ok done
  | .mapping [(name, v)] :: rest => mergeVariables (Mapping.set name v done) rest
  | item :: _ => .error (.variablesItem item)

/-- Variables as a mapping. -/
def bindings : Value → Except SchemaFault Mapping
  | .null => .ok []
  | .mapping m => .ok m
  | .list items => mergeVariables [] items
  | .text s => .error (.variablesComputed s)
  | v => .error (.badVariables v)

/-! ## Extractors -/

/-- What an extractor that is a regular expression begins with. -/
def regexMark : String := "regex:"

/-- The extractors of a list of mappings, merged in order. -/
def mergeExtractors (done : Mapping) : List Value → Except SchemaFault Mapping
  | [] => .ok done
  | .mapping m :: rest => mergeExtractors (Mapping.merge done m) rest
  | item :: _ => .error (.extractorItem item)

/-- An extractor in the current syntax; regular expressions stay as they are. -/
def extractor (entry : String × Value) : Except SchemaFault (String × Value) :=
  match entry with
  | (name, .text raw) =>
    if Text.beginsWith regexMark raw then .ok (name, .text raw)
    else (Expression.modernize raw).map fun e => (name, .text e)
  | (name, v) => .error (.badExtractor name v)

/-- Extractors as a mapping, with their expressions in the current syntax. -/
def extractors (v : Value) : Except SchemaFault Mapping := do
  let merged ←
    match v with
    | .mapping m => .ok (Mapping.merge [] m)
    | .list items => mergeExtractors [] items
    | v => .error (.badExtractors v)
  merged.mapM extractor

/-! ## Validators -/

/-- A validator with its check in the current syntax, in either notation; anything else stays as it is. -/
def validator (v : Value) : Except SchemaFault Value :=
  match v with
  | .mapping m =>
    if Mapping.has "check" m && Mapping.has "expect" m then
      match Mapping.get? "check" m with
      | some (.text check) =>
        (Expression.modernize check).map fun e => .mapping (Mapping.set "check" (.text e) m)
      | _ => .ok v
    else
      match m with
      | [(comparator, .list (.text check :: rest))] =>
        (Expression.modernize check).map fun e => .mapping [(comparator, .list (.text e :: rest))]
      | _ => .ok v
  | _ => .ok v

/-- Validators with their checks in the current syntax. -/
def validators (vs : List Value) : Except SchemaFault (List Value) := vs.mapM validator

/-! ## Steps -/

/-- The entries of the given keys that are present, in the order of the keys. -/
def entriesOf (keys : List String) (m : Mapping) : Mapping :=
  keys.filterMap fun key => (Mapping.get? key m).map (key, ·)

/-- The converted entry of a key, where the key is present. -/
def convertedEntry (key : String) (convert : Value → Except SchemaFault Value) (m : Mapping) :
    Except SchemaFault Mapping :=
  match Mapping.get? key m with
  | none => .ok []
  | some v => (convert v).map fun w => [(key, w)]

/-- The validators of a step, which must be a list. -/
def stepValidators : Value → Except SchemaFault Value
  | .list vs => (validators vs).map .list
  | v => .error (.validatorsNotList v)

/-- What every kind of step has besides its request or reference: its name first, then those of the
other fields that are present, in a fixed order. -/
def attachments (step : Mapping) : Except SchemaFault Mapping :=
  match Mapping.get? "name" step with
  | none => .error .stepWithoutName
  | some name => do
    let extract ← convertedEntry "extract" (fun v => (extractors v).map .mapping) step
    let validate ← convertedEntry "validate" stepValidators step
    return ("name", name) :: entriesOf ["variables", "setup_hooks", "teardown_hooks"] step
      ++ extract ++ entriesOf ["export"] step ++ validate

/-- What a step does: a request goes before the older `api` and before `testcase`, and the latter two are
both references. -/
def action? (step : Mapping) : Option (String × Value) :=
  match Mapping.get? "request" step with
  | some request => some ("request", request)
  | none =>
    match Mapping.get? "api" step with
    | some reference => some ("testcase", reference)
    | none => (Mapping.get? "testcase" step).map ("testcase", ·)

/-- A step in the current shape. -/
def step (v : Value) : Except SchemaFault Value :=
  match v with
  | .mapping m =>
    match action? m with
    | some action => (attachments m).map fun rest => .mapping (action :: rest)
    | none => .error (.badStep v)
  | _ => .error (.badStep v)

/-! ## Documents -/

/-- Whether a document is a single request: it has a request and a name. -/
def isApi (document : Mapping) : Bool :=
  Mapping.has "request" document && Mapping.has "name" document

/-- The names that a step extracts. -/
def extractedNames (attached : Mapping) : List Value :=
  match Mapping.get? "extract" attached with
  | some (.mapping m) => (Mapping.keys m).map .text
  | _ => []

/-- A single request as a testcase of one step, which exports what the step extracts. -/
def promote (api : Mapping) : Except SchemaFault Mapping :=
  match Mapping.get? "request" api with
  | none => .error .missingRequest
  | some request => do
    let attached ← attachments api
    let name := (Mapping.get? "name" api).getD .null
    let names := extractedNames attached
    let exports : Mapping := if names.isEmpty then [] else [("export", .list names)]
    return [("config", .mapping (("name", name) :: exports)),
      ("teststeps", .list [.mapping (("request", request) :: attached)])]

/-- A testcase with every step in the current shape, and nothing besides its config and steps. -/
def current (testcase : Mapping) : Except SchemaFault Mapping :=
  match Mapping.get? "config" testcase with
  | none => .error .missingConfig
  | some config =>
    match Mapping.get? "teststeps" testcase with
    | some (.list steps) => do
      let steps ← steps.mapM step
      return [("config", config), ("teststeps", .list steps)]
    | some v => .error (.stepsNotList v)
    | none => .error .missingSteps

/-- Any document in the current shape. -/
def normalize (raw : Value) : Except SchemaFault Mapping :=
  match raw with
  | .mapping m => do
    let document ← if isApi m then promote m else .ok m
    match Mapping.get? "config" document with
    | none => .error .missingConfig
    | some (.mapping _) => current document
    | some v => .error (.configNotMapping v)
  | v => .error (.notMapping v)

end TestScribe.Legacy
