/-
# Generated modules

The text of a pytest module: a header that names its source, imports, and one class with the
configuration and the steps of a testcase.

* `Script` : what a module is made of;
* `Script.render` : its text.
-/
import TestScribe.Text.Cut

namespace TestScribe

/-- What a module is made of; expressions are given as source text. -/
structure Script where
  /-- the version of the runner that the module is for -/
  version : String
  /-- the source document, relative to the project root -/
  source : String
  className : String
  imports : List String
  config : String
  /-- the quoted reason for which the test is skipped -/
  skip : Option String
  marks : List String
  parameters : Option String
  /-- whether a step calls another testcase -/
  callsTestcases : Bool
  steps : List String
deriving DecidableEq, Repr

namespace Script

/-- Whether the module decorates its test. -/
def isDecorated (s : Script) : Bool := s.parameters.isSome || s.skip.isSome || !s.marks.isEmpty

/-- A text that is given and not empty. -/
def shown? : Option String → Option String
  | some s => if s = "" then none else some s
  | none => none

/-- A line if a condition holds. -/
def lineIf (condition : Bool) (line : String) : String := if condition then line ++ "\n" else ""

/-- One line for each item. -/
def lines (line : String → String) : List String → String
  | [] => ""
  | item :: rest => line item ++ "\n" ++ lines line rest

/-- The comment lines that say where the module comes from. -/
def header (s : Script) : String :=
  "# NOTE: Generated By HttpRunner " ++ s.version ++ "\n# FROM: " ++ s.source ++ "\n\n"

/-- The import lines. -/
def importLines (s : Script) : String :=
  lineIf s.isDecorated "import pytest"
    ++ "from httprunner import HttpRunner, Config, Step, RunRequest\n"
    ++ lineIf (shown? s.parameters).isSome "from httprunner import Parameters"
    ++ lineIf s.callsTestcases "from httprunner import RunTestCase"
    ++ lines id s.imports

/-- The decorators of the test. -/
def decorators (s : Script) : String :=
  (match shown? s.skip with
    | some reason => "    @pytest.mark.skip(reason=" ++ reason ++ ")\n"
    | none => "")
    ++ lines (fun mark => "    @pytest.mark." ++ mark) s.marks

/-- The test function, which takes a parameter if there are any. -/
def function (s : Script) : String :=
  match shown? s.parameters with
  | some parameters =>
    "    @pytest.mark.parametrize(\"param\", Parameters(" ++ parameters ++ "))\n"
      ++ "    def test_start(self, param):\n        super().test_start(param)\n"
  | none => "    def test_start(self):\n        super().test_start()\n"

/-- The text of the module. -/
def render (s : Script) : String :=
  s.header ++ s.importLines
    ++ "\n\nclass " ++ s.className ++ "(HttpRunner):\n"
    ++ s.decorators ++ s.function
    ++ "\n    config = " ++ s.config ++ "\n\n    teststeps = [\n"
    ++ lines (fun step => "        " ++ step ++ ",") s.steps
    ++ "    ]\n\n\nif __name__ == \"__main__\":\n    " ++ s.className ++ "().test_start()\n"

end Script

end TestScribe
