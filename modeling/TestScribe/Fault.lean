/-
# Faults

Everything that can go wrong, one constructor for each cause, and the words in which each is
reported.  A fault belongs to a category; its message is the heading of the category followed by the
detail of the cause.

* `SchemaFault` : a document that is no testcase;
* `Fault` : any failure of making testcases;
* `Fault.message`, `Fault.category` : how a fault is reported;
* `Fault.isRecoverable`, `Fault.isLoadFault` : which faults only skip a document.
-/
import TestScribe.Document.Json
import TestScribe.Path
import TestScribe.Text.Utf8

namespace TestScribe

/-! ## Faults of a document -/

/-- The part of a testcase that a field belongs to. -/
inductive Place where
  | config
  | step
  | stepNamed (name : String)
deriving DecidableEq, Repr

/-- A part in words. -/
def Place.text : Place → String
  | .config => "config"
  | .step => "teststep"
  | .stepNamed name => "teststep '" ++ name ++ "'"

/-- What is wrong with a field. -/
inductive FieldFault where
  | missing
  | notText (v : Value)
  | notBool (v : Value)
  | notMapping (v : Value)
  | notList (v : Value)
  | itemNotText (v : Value)
deriving DecidableEq, Repr

/-- What is wrong with a validator. -/
inductive ValidatorFault where
  | notMapping
  | comparatorNotText
  | wrongValues
  | unknownShape
  | checkNotText
  | comparatorNotName
deriving DecidableEq, Repr

/-- A validator's fault in words. -/
def ValidatorFault.text : ValidatorFault → String
  | .notMapping => "should be a mapping"
  | .comparatorNotText => "comparator should be a string"
  | .wrongValues => "expected [check, expect] or [check, expect, message]"
  | .unknownShape => "unknown validator shape"
  | .checkNotText => "check should be a string"
  | .comparatorNotName => "comparator should be an identifier"

/-- When a hook is called. -/
inductive HookTime where
  | setup
  | teardown
deriving DecidableEq, Repr

/-- The time of a hook in words. -/
def HookTime.text : HookTime → String
  | .setup => "setup"
  | .teardown => "teardown"

/-- Why a document is no testcase. -/
inductive SchemaFault where
  | notMapping (v : Value)
  | missingConfig
  | configNotMapping (v : Value)
  | missingRequest
  | missingSteps
  | stepsNotList (v : Value)
  | badStep (v : Value)
  | stepWithoutName
  | validatorsNotList (v : Value)
  | variablesItem (v : Value)
  | variablesComputed (text : String)
  | badVariables (v : Value)
  | badExpression (text : String)
  | extractorItem (v : Value)
  | badExtractors (v : Value)
  | badExtractor (name : String) (v : Value)
  | validator (v : Value) (fault : ValidatorFault)
  | field (place : Place) (key : String) (fault : FieldFault)
  | configSkip (v : Value)
  | configParameters (v : Value)
  | configMark (mark : String)
  | stepReference (place : Place) (v : Value)
  | stepExtractor (place : Place) (name : String) (v : Value)
  | stepExtract (place : Place) (v : Value)
  | stepValidate (place : Place) (v : Value)
  | request (place : Place) (v : Value)
  | requestMethod (place : Place) (method : String)
  | requestTimeout (place : Place) (v : Value)
  | hook (time : HookTime) (v : Value)
  | hooks (time : HookTime) (v : Value)
  | unresolved (step reference : String)
  | referenceNotMapping (step : String) (path : Path)
deriving DecidableEq, Repr

/-- The fault of a field in words. -/
def FieldFault.text (place : Place) (key : String) : FieldFault → String
  | .missing => "Invalid " ++ place.text ++ ": missing " ++ key
  | .notText v => "Invalid " ++ place.text ++ " " ++ key ++ ": should be a string, got " ++ v.json
  | .notBool v => "Invalid " ++ place.text ++ " " ++ key ++ ": should be a bool, got " ++ v.json
  | .notMapping v => "Invalid " ++ place.text ++ " " ++ key ++ ": should be a mapping, got " ++ v.json
  | .notList v => "Invalid " ++ place.text ++ " " ++ key ++ ": should be a list, got " ++ v.json
  | .itemNotText v =>
    "Invalid " ++ place.text ++ " " ++ key ++ ": items should be strings, got " ++ v.json

/-- The fault of a document in words. -/
def SchemaFault.text : SchemaFault → String
  | .notMapping v => "testcase: content should be a mapping, got " ++ v.kind
  | .missingConfig => "testcase: missing config part"
  | .configNotMapping v => "testcase: config should be a mapping, got " ++ v.json
  | .missingRequest => "api: missing request"
  | .missingSteps => "testcase: missing teststeps"
  | .stepsNotList v => "teststeps: should be a list, got " ++ v.kind
  | .badStep v => "Invalid teststep: " ++ v.json
  | .stepWithoutName => "Invalid teststep: missing name"
  | .validatorsNotList v => "Invalid teststep: validate should be a list, got " ++ v.json
  | .variablesItem v =>
    "Invalid variables: list item should be a single-key mapping, got " ++ v.json
  | .variablesComputed text =>
    "Invalid variables: variables computed by function call are not supported: " ++ text
  | .badVariables v => "Invalid variables: " ++ v.json
  | .badExpression text => "Invalid jmespath: " ++ text
  | .extractorItem v => "Invalid extractor: should be a mapping, got " ++ v.json
  | .badExtractors v => "Invalid extractor: should be a list or mapping, got " ++ v.json
  | .badExtractor name v => "Invalid extractor: " ++ name ++ ": " ++ v.json
  | .validator v fault => "Invalid validator: " ++ v.json ++ " (" ++ fault.text ++ ")"
  | .field place key fault => fault.text place key
  | .configSkip v => "Invalid config skip: " ++ v.json
  | .configParameters v => "Invalid config parameters: " ++ v.json
  | .configMark mark => "Invalid config marks: '" ++ mark ++ "' is not a valid pytest mark name"
  | .stepReference place v => "Invalid " ++ place.text ++ " testcase reference: " ++ v.json
  | .stepExtractor place name v =>
    "Invalid " ++ place.text ++ " extractor: " ++ name ++ ": " ++ v.json
  | .stepExtract place v => "Invalid " ++ place.text ++ " extract: " ++ v.json
  | .stepValidate place v => "Invalid " ++ place.text ++ " validate: " ++ v.json
  | .request place v => "Invalid " ++ place.text ++ " request: " ++ v.json
  | .requestMethod place method => "Invalid " ++ place.text ++ " request method: " ++ method
  | .requestTimeout place v => "Invalid " ++ place.text ++ " request timeout: " ++ v.json
  | .hook time v => "Invalid " ++ time.text ++ " hook: " ++ v.json
  | .hooks time v => "Invalid " ++ time.text ++ " hooks: " ++ v.json
  | .unresolved step reference =>
    "Unresolved testcase reference in step '" ++ step ++ "': " ++ reference
  | .referenceNotMapping step path =>
    "Invalid teststep '" ++ step ++ "': referenced testcase " ++ path.text ++ " is not a mapping"

/-! ## Faults of files, names and settings -/

/-- Why a file is no document. -/
inductive FileFault where
  | notText (fault : Utf8.Fault)
  | notJson
  | notYaml
  | unknownFormat
  | vacant
deriving DecidableEq, Repr

/-- A file's fault in words. -/
def FileFault.text : FileFault → String
  | .notText fault => "not valid UTF-8: " ++ fault.message
  | .notJson => "JSON format error"
  | .notYaml => "YAML format error"
  | .unknownFormat => "testcase file should be YAML/JSON format"
  | .vacant => "testcase file content is empty"

/-- A path that names no testcase. -/
inductive MissingFault where
  | reference (path : Path)
  | argument (path : Path)
deriving DecidableEq, Repr

/-- A missing testcase in words. -/
def MissingFault.text : MissingFault → String
  | .reference path => "Invalid testcase file path: " ++ path.text
  | .argument path => "Invalid tests path: " ++ path.text

/-- A path that cannot be used. -/
inductive PathFault where
  | outsideRoot (path root : Path)
  | notGenerated (path : Path)
  | outputHoldsInput (output input : Path)
  | noParent (path : Path)
deriving DecidableEq, Repr

/-- An unusable path in words. -/
def PathFault.text : PathFault → String
  | .outsideRoot path root =>
    "failed to convert absolute path to relative path based on project root\n abs_path: "
      ++ path.text ++ "\n root: " ++ root.text
  | .notGenerated path => path.text ++ " was not generated"
  | .outputHoldsInput output input =>
    "output directory " ++ output.text ++ " would remove input " ++ input.text
  | .noParent path => "no parent dir: " ++ path.text

/-- Two sources that claim one name. -/
inductive CollisionFault where
  | sameFile (first second file : Path)
  | sameClass (first second : Path) (name : String) (directory : Path)
deriving DecidableEq, Repr

/-- A collision in words. -/
def CollisionFault.text : CollisionFault → String
  | .sameFile first second file =>
    first.text ++ " and " ++ second.text ++ " both generate " ++ file.text
  | .sameClass first second name directory =>
    first.text ++ " and " ++ second.text ++ " both define class TestCase" ++ name ++ " in "
      ++ directory.text

/-- A file operation that the disk refuses. -/
inductive DiskFault where
  | notFound (path : Path)
  | notDirectory (path : Path)
  | isDirectory (path : Path)
  | device (path : Path)
deriving DecidableEq, Repr

/-- A refused file operation in words. -/
def DiskFault.text : DiskFault → String
  | .notFound path => "No such file or directory: " ++ path.text
  | .notDirectory path => "Not a directory: " ++ path.text
  | .isDirectory path => "Is a directory: " ++ path.text
  | .device path => "Input/output error: " ++ path.text

/-- Settings that cannot be used. -/
inductive SettingsFault where
  | unreadable
  | invalid (fields : List (String × String))
  | arguments (text : String)
deriving DecidableEq, Repr

/-- Unusable settings in words. -/
def SettingsFault.text : SettingsFault → String
  | .unreadable => "settings cannot be read"
  | .invalid _ => "Settings validation failed"
  | .arguments text => "Invalid formatter arguments: " ++ text

/-- What lies behind unusable settings, from the outside in. -/
def SettingsFault.causes : SettingsFault → List String
  | .unreadable => []
  | .invalid fields =>
    ["Settings validation failed",
      Text.joinWith "\n" (fields.map fun (field, text) => field ++ ": " ++ text)]
  | .arguments text => ["Invalid formatter arguments: " ++ text]

/-! ## Categories -/

/-- The kinds of failure. -/
inductive Category where
  | format
  | testcaseNotFound
  | fileNotFound
  | fileFormat
  | params
  | cyclicReference
  | identifierCollision
  | template
  | io
  | formatterFailed
  | formatterMissing
  | config
deriving DecidableEq, Repr

namespace Category

/-- The name of a category. -/
def name : Category → String
  | format => "format"
  | testcaseNotFound => "testcase_not_found"
  | fileNotFound => "file_not_found"
  | fileFormat => "file_format"
  | params => "params"
  | cyclicReference => "cyclic_reference"
  | identifierCollision => "identifier_collision"
  | template => "template"
  | io => "io"
  | formatterFailed => "formatter_failed"
  | formatterMissing => "formatter_missing"
  | config => "config"

/-- The words with which every message of a category begins. -/
def heading : Category → String
  | format => "Invalid testcase format: "
  | testcaseNotFound => "Testcase not found: "
  | fileNotFound => "File not found: "
  | fileFormat => "Invalid file format: "
  | params => "Invalid parameter: "
  | cyclicReference => "Cyclic testcase reference: "
  | identifierCollision => "Class name collision: "
  | template => "Template error: "
  | io => "I/O operation failed: "
  | formatterFailed => "Formatter failed: "
  | formatterMissing => "Missing dependency tool: "
  | config => "Configuration error: "

/-- A message of a category. -/
def message (c : Category) (detail : String) : String := c.heading ++ detail

/-- Whether a batch goes on after skipping the testcase at fault. -/
def isRecoverable : Category → Bool
  | format => true
  | identifierCollision => true
  | _ => false

/-- Whether the fault lies in loading a document. -/
def isLoadFault : Category → Bool
  | fileNotFound => true
  | fileFormat => true
  | _ => false

/-- All categories. -/
def all : List Category :=
  [format, testcaseNotFound, fileNotFound, fileFormat, params, cyclicReference,
    identifierCollision, template, io, formatterFailed, formatterMissing, config]

/-- The category of a name. -/
def ofName? (s : String) : Option Category := all.find? (·.name = s)

end Category

/-! ## Failures -/

/-- A failure of making testcases. -/
inductive Fault where
  | schema (fault : SchemaFault)
  | missing (fault : MissingFault)
  | noFile (path : Path)
  | file (path : Path) (fault : FileFault)
  | path (fault : PathFault)
  | cycle (chain : List Path)
  | collision (fault : CollisionFault)
  | disk (fault : DiskFault)
  | formatter (file : Path) (complaint : String)
  | noFormatter (program : String)
  | settings (fault : SettingsFault)
  | tooDeep (path : Path)
deriving DecidableEq, Repr

/-- Paths with arrows between them. -/
def chainText (chain : List Path) : String := Text.joinWith " -> " (chain.map Path.text)

namespace Fault

/-- The category of a failure. -/
def category : Fault → Category
  | schema _ => .format
  | missing _ => .testcaseNotFound
  | noFile _ => .fileNotFound
  | file _ _ => .fileFormat
  | path _ => .params
  | cycle _ => .cyclicReference
  | collision _ => .identifierCollision
  | disk _ => .io
  | formatter _ _ => .formatterFailed
  | noFormatter _ => .formatterMissing
  | settings _ => .config
  | tooDeep _ => .cyclicReference

/-- The words that follow the heading of the category. -/
def detail : Fault → String
  | schema fault => fault.text
  | missing fault => fault.text
  | noFile p => p.text
  | file p fault => p.text ++ ": " ++ fault.text
  | path fault => fault.text
  | cycle chain => chainText chain
  | collision fault => fault.text
  | disk fault => fault.text
  | formatter p complaint => p.text ++ ": " ++ complaint
  | noFormatter program =>
    program ++ " is not installed, install it with `pip install " ++ program ++ "`"
  | settings fault => fault.text
  | tooDeep p => p.text

/-- The message of a failure. -/
def message (f : Fault) : String := f.category.message f.detail

/-- Whether a batch goes on after skipping the testcase at fault. -/
def isRecoverable (f : Fault) : Bool := f.category.isRecoverable

/-- Whether the failure lies in loading a document. -/
def isLoadFault (f : Fault) : Bool := f.category.isLoadFault

/-- The message of a failure followed by those of what lies behind it. -/
def trace : Fault → List String
  | settings fault => (settings fault).message :: fault.causes
  | disk fault => [(disk fault).message, fault.text]
  | f => [f.message]

end Fault

end TestScribe
