/-
# Layers of settings

Settings come from three layers: the defaults, a settings file, and the environment.  A later layer
takes the place of an earlier one, field by field.

* `Settings.Layer` : fields with what they are set to;
* `Settings.file?` : the layer of a settings file;
* `Settings.environment` : the layer of the environment;
* `Settings.load` : the settings of all layers.
-/
import TestScribe.Disk
import TestScribe.Settings
import TestScribe.Settings.Toml
import TestScribe.Text.Case

namespace TestScribe.Settings

/-- Fields with what they are set to. -/
abbrev Layer := Toml.Table

/-- The defaults as a layer. -/
def defaults : Layer :=
  let s : Settings := {}
  [("formatter", .text s.formatter), ("formatter_args", .text s.formatterArgs),
    ("parallel_format", .bool s.parallelFormat), ("root_marker", .text s.rootMarker),
    ("generated_suffix", .text s.generatedSuffix), ("package_marker", .text s.packageMarker),
    ("runner_version", .text s.runnerVersion)]

/-! ## Setting fields -/

/-- The rest of a key that leads into a field: names after dots, and numbers in brackets. -/
def isAccess : Nat → List Char → Bool
  | _, [] => true
  | 0, _ => false
  | fuel + 1, '.' :: rest =>
    let name := rest.takeWhile Toml.isKeyChar
    !name.isEmpty && isAccess fuel (rest.drop name.length)
  | fuel + 1, '[' :: rest =>
    let digits := ((Toml.sign rest).2).takeWhile Text.isDigit
    match ((Toml.sign rest).2).drop digits.length with
    | ']' :: more => !digits.isEmpty && isAccess fuel more
    | _ => false
  | _, _ => false

/-- The field that a key belongs to, and whether the key leads into it. -/
def fieldOf (key : String) : String × Bool :=
  let cs := key.toList
  let name := cs.takeWhile Toml.isKeyChar
  let rest := cs.drop name.length
  if name.isEmpty || rest.isEmpty || !isAccess cs.length rest then (key, false)
  else (String.ofList name, true)

/-- A field is set.  A table without entries leaves a field as it is; a key that leads into a field makes it
a table. -/
def setField (layer : Layer) (key : String) (item : Toml.Item) : Layer :=
  match fieldOf key with
  | (field, true) => Toml.put field (.table .header [(key, item)]) layer
  | (field, false) =>
    match item with
    | .table _ [] => if (Toml.find? field layer).isSome then layer else Toml.put field item layer
    | _ => Toml.put field item layer

/-- All fields of a later layer are set. -/
def overlay (layer later : Layer) : Layer := later.foldl (fun l (key, item) => setField l key item) layer

/-! ## Reading fields -/

/-- What is set, as text. -/
def textOf? : Toml.Item → Option String
  | .text s => some s
  | .integer i => some (toString i)
  | .real r => some r.text
  | .bool b => some (if b then "true" else "false")
  | .time s => some s
  | _ => none

/-- The words for truth values. -/
def truth? (s : String) : Option Bool :=
  if ["1", "true", "on", "yes"].contains s then some true
  else if ["0", "false", "off", "no"].contains s then some false
  else none

/-- What is set, as a truth value; numbers are true unless they are zero. -/
def boolOf? : Toml.Item → Option Bool
  | .text s => truth? (Text.lower s)
  | .time s => truth? (Text.lower s)
  | .integer i => some (i ≠ 0)
  | .real (.finite x) => some (!x.isZero)
  | .real _ => some true
  | .bool b => some b
  | _ => none

/-- The settings of a layer that sets every field. -/
def ofLayer? (layer : Layer) : Option Settings := do
  let text (field : String) : Option String := (Toml.find? field layer).bind textOf?
  return {
    formatter := ← text "formatter"
    formatterArgs := ← text "formatter_args"
    parallelFormat := ← (Toml.find? "parallel_format" layer).bind boolOf?
    rootMarker := ← text "root_marker"
    generatedSuffix := ← text "generated_suffix"
    packageMarker := ← text "package_marker"
    runnerVersion := ← text "runner_version" }

/-! ## The layers -/

/-- The settings file that is read if none is named. -/
def defaultFile : Path := Path.ofString "hrmake.toml"

/-- The beginning of the names of environment variables, in lower case. -/
def variableStart : String := "hrmake_"

/-- The file that a settings path stands for: itself, or the one with an extension added. -/
def locate? (d : Disk) (p : Path) : Option Path :=
  if d.isFile p then (if p.extension? = some "toml" then some p else none)
  else if d.isFile (p.extend ".toml") then some (p.extend ".toml")
  else none

/-- The layer of a settings file; none if it has faults.  A file that is missing or no text sets
nothing. -/
def file? (d : Disk) (p : Path) : Option Layer :=
  match (locate? d p).bind d.read? with
  | none => some []
  | some content =>
    match Utf8.decode content.toList with
    | .ok text => Toml.read? text
    | .error _ => some []

/-- The layer of the environment. -/
def environment (assigned : List (String × String)) : Layer :=
  assigned.filterMap fun (name, value) =>
    (Text.afterPrefix? variableStart (Text.lower name)).map fun field => (field, .text value)

/-- The settings of all layers, which must be usable. -/
def load (d : Disk) (file : Option Path) (assigned : List (String × String)) :
    Except Fault Settings :=
  match file? d (file.getD defaultFile) with
  | none => .error (.settings .unreadable)
  | some layer =>
    match ofLayer? (overlay (overlay defaults layer) (environment assigned)) with
    | none => .error (.settings .unreadable)
    | some s => s.checked

end TestScribe.Settings
