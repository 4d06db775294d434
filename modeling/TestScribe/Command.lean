/-
# The command line

What the arguments ask for, and what is answered: the files to run and the documents that were skipped,
or the reason for a failure.

* `Invocation.ofArguments` : what the arguments ask for;
* `Command.report` : a report as a table;
* `Command.run` : a whole run.
-/
import TestScribe.Batch
import TestScribe.Settings.Layers

namespace TestScribe.Command

/-! ## Arguments -/

/-- What a run is asked to do. -/
structure Order where
  paths : List String := []
  outputDirectory : Option String := none
  noFormat : Bool := false
  settingsFile : Option String := none
deriving DecidableEq, Repr

/-- What the arguments ask for. -/
inductive Invocation where
  | make (order : Order)
  | version
  | unclear
deriving DecidableEq, Repr

/-- The options. -/
inductive Switch where
  | verbose
  | config
  | version
  | outputDirectory
  | noFormat
deriving DecidableEq, Repr

namespace Switch

/-- The option of a long name; some belong to the command alone, and some stand before it alone. -/
def ofName? (inMake : Bool) (name : String) : Option Switch :=
  if name = "verbose" then some .verbose
  else if name = "config" then some .config
  else if name = "version" && !inMake then some .version
  else if name = "output-dir" && inMake then some .outputDirectory
  else if name = "no-format" && inMake then some .noFormat
  else none

/-- The option of a letter. -/
def ofLetter? (inMake : Bool) (c : Char) : Option Switch :=
  if c = 'v' then some .verbose
  else if c = 'c' then some .config
  else if c = 'V' && !inMake then some .version
  else if c = 'o' && inMake then some .outputDirectory
  else none

/-- Whether a value follows an option. -/
def takesValue : Switch → Bool
  | .config | .outputDirectory => true
  | _ => false

end Switch

/-- What is known while arguments are read: the order so far, whether the command was named, and the
settings file named before it. -/
structure Reading where
  order : Order := {}
  inMake : Bool := false
  outerSettings : Option String := none

namespace Reading

/-- An option without a value.  None if it is given a second time. -/
def flag? (r : Reading) : Switch → Option Reading
  | .noFormat =>
    if r.order.noFormat then none else some { r with order := { r.order with noFormat := true } }
  | _ => some r

/-- An option with its value, which is not empty.  None if it is given a second time. -/
def value? (r : Reading) (s : Switch) (value : String) : Option Reading :=
  if value.isEmpty then none
  else
    match s with
    | .config =>
      if r.order.settingsFile.isSome then none
      else some { r with order := { r.order with settingsFile := some value } }
    | .outputDirectory =>
      if r.order.outputDirectory.isSome then none
      else some { r with order := { r.order with outputDirectory := some value } }
    | _ => none

/-- The command is named; its own settings file goes before the one named earlier. -/
def enter (r : Reading) : Reading :=
  { r with
    inMake := true
    outerSettings := r.order.settingsFile
    order := { r.order with settingsFile := none } }

/-- One more path, which is not empty. -/
def path? (r : Reading) (p : String) : Option Reading :=
  if p.isEmpty then none else some { r with order := { r.order with paths := r.order.paths ++ [p] } }

/-- What was asked for, at the end of the arguments. -/
def finish (r : Reading) : Invocation :=
  if r.inMake && !r.order.paths.isEmpty then
    .make { r.order with settingsFile := r.order.settingsFile.orElse fun _ => r.outerSettings }
  else .unclear

end Reading

/-- Whether an argument can be the value of an option before it. -/
def isValue (argument : String) : Bool :=
  match argument.toList with
  | '-' :: _ :: _ => false
  | _ => true

/-- What one argument does: the reading goes on, an option waits for its value, or the answer is
known. -/
inductive Progress where
  | reading (r : Reading)
  | waiting (r : Reading) (s : Switch)
  | known (invocation : Invocation)

/-- The reading goes on unless it failed. -/
def Progress.ofOption : Option Reading → Progress
  | some r => .reading r
  | none => .known .unclear

/-- A long option, after its dashes. -/
def longOption (r : Reading) (argument : List Char) : Progress :=
  let name := argument.takeWhile (· ≠ '=')
  match Switch.ofName? r.inMake (String.ofList name), argument.drop name.length with
  | none, _ => .known .unclear
  | some s, [] =>
    if s = .version then .known .version
    else if s.takesValue then .waiting r s
    else .ofOption (r.flag? s)
  | some s, _ :: value =>
    if s.takesValue then .ofOption (r.value? s (String.ofList value)) else .known .unclear

/-- Letters of options, after their dash. -/
def letters (r : Reading) : List Char → Progress
  | [] => .reading r
  | c :: rest =>
    match Switch.ofLetter? r.inMake c with
    | none => .known .unclear
    | some s =>
      if s = .version then .known .version
      else if s.takesValue then
        match rest with
        | [] => .waiting r s
        | '=' :: value => .ofOption (r.value? s (String.ofList value))
        | value => .ofOption (r.value? s (String.ofList value))
      else
        match r.flag? s with
        | some r => letters r rest
        | none => .known .unclear

/-- An argument that is no option: the command, and then paths. -/
def operand (r : Reading) (argument : String) : Progress :=
  if r.inMake then .ofOption (r.path? argument)
  else if argument = "make" then .reading r.enter
  else .known .unclear

/-- One argument. -/
def argument (r : Reading) (a : String) : Progress :=
  match a.toList with
  | '-' :: '-' :: name => longOption r name
  | '-' :: c :: rest => letters r (c :: rest)
  | _ => operand r a

/-- The arguments after two dashes are paths. -/
def operands (r : Reading) : List String → Invocation
  | [] => r.finish
  | a :: rest =>
    match operand r a with
    | .reading r => operands r rest
    | _ => .unclear

/-- What the arguments ask for, after some of them; an option may wait for its value. -/
def invocation (r : Reading) (waiting : Option Switch) : List String → Invocation
  | [] => if waiting.isSome then .unclear else r.finish
  | a :: rest =>
    match waiting with
    | some s =>
      if isValue a then
        match r.value? s a with
        | some r => invocation r none rest
        | none => .unclear
      else .unclear
    | none =>
      if a = "--" then (if r.inMake then operands r rest else .unclear)
      else
        match argument r a with
        | .reading r => invocation r none rest
        | .waiting r s => invocation r (some s) rest
        | .known q => q

/-- What the arguments ask for. -/
def Invocation.ofArguments (arguments : List String) : Invocation := invocation {} none arguments

/-! ## Answers -/

/-- What a run answers. -/
inductive Answer where
  | done (text : String)
  | failed (fault : Fault) (text : String)
  | usage
deriving DecidableEq, Repr

/-- The status that a run ends with. -/
def Answer.status : Answer → Nat
  | .done _ => 0
  | .failed _ _ => 1
  | .usage => 2

/-- The version line. -/
def versionLine : String := "hrmake 0.1.0\n"

/-- The rows of a report: what becomes of a file, and which file. -/
def rows (r : Report) : List (String × String) :=
  r.runSet.map (fun p => ("run", p.text))
    ++ r.skipped.map fun s => ("skip", s.file.text ++ " (" ++ Text.firstLine s.reason ++ ")")

/-- A text with blanks after it, up to a width. -/
def padded (width : Nat) (s : String) : String :=
  s ++ String.ofList (List.replicate (width - s.length) ' ')

/-- The rows one below the other, the second column aligned. -/
def table (rows : List (String × String)) : String :=
  let width := rows.foldl (fun w row => max w row.1.length) 0
  String.join (rows.map fun (first, second) => padded width first ++ " " ++ second ++ "\n")

/-- A report: its rows, and how much was done. -/
def report (r : Report) : String :=
  table (rows r) ++ "generated " ++ Nat.repr r.generated.length ++ " files, "
    ++ Nat.repr r.runSet.length ++ " to run, " ++ Nat.repr r.skipped.length ++ " skipped\n"

/-- A failure with all that lies behind it. -/
def failure (lead : List String) (fault : Fault) : Answer :=
  .failed fault (Text.joinWith ": " (lead ++ fault.trace))

/-! ## Runs -/

/-- An order is carried out with some settings. -/
def carryOut (d : Disk) (settings : Settings) (order : Order) : Answer × Disk :=
  match Formatter.ofSettings settings with
  | .error fault => (failure [] fault, d)
  | .ok formatter =>
    let session : Session :=
      { settings, locator := .marker settings.rootMarker d.currentPath, disk := d }
    let inputs := order.paths.map Path.ofString
    let directory := order.outputDirectory.map Path.ofString
    match Batch.run inputs directory (if order.noFormat then none else some formatter) session with
    | .ok r s => (.done (report r), s.disk)
    | .error fault s => (failure [] fault, s.disk)

/-- A run with an environment and arguments. -/
def run (d : Disk) (assigned : List (String × String)) (arguments : List String) : Answer × Disk :=
  match Invocation.ofArguments arguments with
  | .version => (.done versionLine, d)
  | .unclear => (.usage, d)
  | .make order =>
    match Settings.load d (order.settingsFile.map Path.ofString) assigned with
    | .error fault => (failure ["Failed to load settings"] fault, d)
    | .ok settings => carryOut d settings order

end TestScribe.Command
