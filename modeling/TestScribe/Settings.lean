/-
# Settings

What can be chosen about generating modules, with defaults, and the conditions that settings must meet.

* `Settings` : the record;
* `Settings.faults` : the fields that cannot be used, each with the reason;
* `Settings.formatterArguments` : the words of the formatter's arguments.
-/
import TestScribe.Fault
import TestScribe.Text.Words

namespace TestScribe

/-- What can be chosen about generating modules. -/
structure Settings where
  /-- the program that formats generated files -/
  formatter : String := "black"
  /-- its arguments, in one line -/
  formatterArgs : String := ""
  /-- whether files are formatted side by side -/
  parallelFormat : Bool := true
  /-- the file that marks a project root -/
  rootMarker : String := "debugtalk.py"
  /-- what follows the stem of a source in the name of its module -/
  generatedSuffix : String := "_test.py"
  /-- the file that makes a directory a package -/
  packageMarker : String := "__init__.py"
  /-- the version that generated files name -/
  runnerVersion : String := "v4.3.5"
deriving DecidableEq, Repr, Inhabited

namespace Settings

/-- A condition on the least length of a field. -/
structure Rule where
  field : String
  value : Settings → String
  least : Nat
  reason : String

/-- The conditions on settings. -/
def rules : List Rule :=
  [⟨"formatter", formatter, 1, "formatter must not be empty"⟩,
    ⟨"root_marker", rootMarker, 1, "project root marker must not be empty"⟩,
    ⟨"generated_suffix", generatedSuffix, 4, "generated suffix must end in a file extension"⟩,
    ⟨"package_marker", packageMarker, 1, "package marker must not be empty"⟩]

/-- The fields that cannot be used, each with the reason. -/
def faults (s : Settings) : List (String × String) :=
  (rules.filter fun r => (r.value s).length < r.least).map fun r => (r.field, r.reason)

/-- The settings, if every field can be used. -/
def checked (s : Settings) : Except Fault Settings :=
  if s.faults.isEmpty then .ok s else .error (.settings (.invalid s.faults))

/-- The words of the formatter's arguments. -/
def formatterArguments (s : Settings) : Except Fault (List String) :=
  if (Text.trim s.formatterArgs).isEmpty then .ok []
  else
    match Words.split? s.formatterArgs with
    | some words => .ok words
    | none => .error (.settings (.arguments s.formatterArgs))

end Settings

end TestScribe
