/-
# Testcases

The typed records of a testcase: its configuration, and its steps, each of which sends a request or
calls another testcase.

* `Testcase`, `Config`, `Step`, `Request` : the records;
* `Method` : the request methods;
* `Target` : what a step that calls another testcase calls.
-/
import TestScribe.Path
import TestScribe.Validator

namespace TestScribe

/-- The request methods. -/
inductive Method where
  | get
  | post
  | put
  | delete
  | head
  | options
  | patch
deriving DecidableEq, Repr

namespace Method

/-- The name of a method as requests give it. -/
def name : Method → String
  | get => "GET"
  | post => "POST"
  | put => "PUT"
  | delete => "DELETE"
  | head => "HEAD"
  | options => "OPTIONS"
  | patch => "PATCH"

/-- The name of a method as a call gives it. -/
def call : Method → String
  | get => "get"
  | post => "post"
  | put => "put"
  | delete => "delete"
  | head => "head"
  | options => "options"
  | patch => "patch"

/-- All methods. -/
def all : List Method := [get, post, put, delete, head, options, patch]

/-- The method of a name in capitals. -/
def ofName? (s : String) : Option Method := all.find? (·.name = s)

end Method

/-- A call before or after a step, whose result may be bound to a variable. -/
inductive Hook where
  | expression (expr : String)
  | binding (var expr : String)
deriving DecidableEq, Repr

/-- How a variable is taken from a response. -/
inductive Extraction where
  | regex (pattern : String)
  | path (expr : String)
deriving DecidableEq, Repr

/-- An extraction as written: a mark at the beginning tells a regular expression. -/
def Extraction.ofText (raw : String) : Extraction :=
  match Text.afterPrefix? "regex:" raw with
  | some pattern => .regex pattern
  | none => .path raw

/-- A request with those of its options that are given. -/
structure Request where
  method : Method
  url : String
  params : Option Mapping
  headers : Option Mapping
  cookies : Option Mapping
  data : Option Value
  json : Option Value
  timeout : Option Number
  verify : Option Bool
  allowRedirects : Option Bool
  upload : Option Mapping
deriving DecidableEq, Repr

/-- What a calling step calls: a testcase by the path in its document, or one that is made, by the name it
is imported under. -/
inductive Target where
  | path (text : String)
  | made (localName : String)
deriving DecidableEq, Repr

/-- What a step does. -/
inductive Action where
  | request (r : Request)
  | call (target : Target)
deriving DecidableEq, Repr

/-- A step with those of its parts that are given. -/
structure Step where
  name : String
  bindings : Option Mapping
  setup : Option (List Hook)
  teardown : Option (List Hook)
  extract : Option (List (String × Extraction))
  exports : Option (List String)
  validate : Option (List Validator)
  action : Action
deriving DecidableEq, Repr

/-- The configuration of a testcase.  A testcase with a skip reason is skipped. -/
structure Config where
  name : String
  bindings : Mapping
  baseUrl : Option String
  verify : Option Bool
  exports : Option (List String)
  skip : Option String
  marks : Option (List String)
  parameters : Option Mapping
  source : Path
deriving DecidableEq, Repr

/-- A testcase. -/
structure Testcase where
  config : Config
  steps : List Step
deriving DecidableEq, Repr

/-- Whether a step calls another testcase. -/
def Step.isCall (s : Step) : Bool :=
  match s.action with
  | .call _ => true
  | .request _ => false

/-- Whether any step calls another testcase. -/
def Testcase.hasCall (t : Testcase) : Bool := t.steps.any Step.isCall

end TestScribe
