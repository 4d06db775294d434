/-
# Making modules from testcases

A document becomes a module next to its source, or in an output directory.  The testcases that its
steps call are made first, next to their own sources; each source is made once in a session.

* `Import.choose` : the name under which a class is imported;
* `Make.resolveSteps` : steps with the testcases they call;
* `Make.testcase` : the module of a document.
-/
import TestScribe.Chain
import TestScribe.Emission
import TestScribe.Legacy
import TestScribe.Naming
import TestScribe.Script
import TestScribe.Session
import TestScribe.Source
import TestScribe.Testcase.Schema

namespace TestScribe

/-! ## Imports -/

/-- A class that a module imports, and the name by which it calls it. -/
structure Import where
  moduleName : String
  className : String
  localName : String
deriving DecidableEq, Repr

namespace Import

/-- The import as a line of the module. -/
def line (i : Import) : String :=
  "from " ++ i.moduleName ++ " import TestCase" ++ i.className ++ " as " ++ i.localName

/-- Whether a name is taken. -/
def taken (imports : List Import) (localName : String) : Bool := imports.any (·.localName = localName)

/-- The `n`-th spelling of a name: the name itself, then the name with 2, 3 and so on after it. -/
def numbered (name : String) (n : Nat) : String := if n = 0 then name else name ++ Nat.repr (n + 1)

/-- The first spelling of a name, from the `n`-th on, that is not taken; `fuel` spellings are tried. -/
def firstFree (imports : List Import) (name : String) : (fuel n : Nat) → String
  | 0, n => numbered name n
  | fuel + 1, n =>
    if taken imports (numbered name n) then firstFree imports name fuel (n + 1)
    else numbered name n

/-- A name for a class of a module that is not taken: that of the class or else one made of the name of
the module. -/
def freshName (imports : List Import) (className moduleName : String) : String :=
  if taken imports className then
    firstFree imports (Naming.className (Text.replaceChar '.' '_' moduleName)) imports.length 0
  else className

/-- The import of a class: the one that is there for its module, or a new one at the end. -/
def choose (imports : List Import) (className moduleName : String) : String × List Import :=
  match imports.find? (·.moduleName = moduleName) with
  | some i => (i.localName, imports)
  | none =>
    let localName := freshName imports className moduleName
    (localName, imports ++ [⟨moduleName, className, localName⟩])

end Import

/-! ## Calls between testcases -/

/-- The exports of a step with those of the testcase it calls: each once, after its own. -/
def mergeExports (own : Option (List String)) (called : List String) : Option (List String) :=
  if called.isEmpty then own
  else some (called.foldl (fun names x => if names.contains x then names else names ++ [x])
    (own.getD []))

/-- A reference as a path: a leading dot segment is dropped, and backslashes are slashes. -/
def referencePath (raw : String) : Path :=
  let rest := ((Text.afterPrefix? "./" raw).orElse fun _ => Text.afterPrefix? ".\\" raw).getD raw
  Path.ofString (Text.replaceChar '\\' '/' rest)

namespace Make

/-- The file that a reference of `referrer` names; relative ones are taken from the project root. -/
def reference (referrer : Path) (raw : String) : Make Path := do
  let given := referencePath raw
  let p ← if given.isAbsolute then pure given else do
    let root ← findRoot referrer
    pure (root.join given)
  let p := p.normalize
  if (← get).disk.isFile p then return p else throw (.missing (.reference p))

/-- The dotted name of a generated module. -/
def moduleName (p : Path) : Make String := do
  let root ← findRoot p.withoutExtension
  ofExcept .path (Naming.moduleName root p)

/-- The module of the testcase that a step calls, made by `nested` if it has not been made. -/
def called (nested : Value → Path → Make Path) (source : Path) (step : Step) (raw : String) :
    Make (Path × Made) := do
  let p ← reference source raw
  let content ← ofExcept id (Source.load (← get).disk p)
  if content.mapping?.isNone then throw (.schema (.referenceNotMapping step.name p))
  let output ← nested content p
  match (← get).made? output with
  | some made => return (output, made)
  | none => throw (.path (.notGenerated output))

/-- A step with the testcase it calls, if it calls one by its path. -/
def resolveStep (nested : Value → Path → Make Path) (source : Path) (imports : List Import)
    (step : Step) : Make (Step × List Import) := do
  match step.action with
  | .call (.path raw) =>
    let (output, made) ← called nested source step raw
    let name ← moduleName output
    let (localName, imports) := Import.choose imports made.className name
    return ({ step with
      exports := mergeExports step.exports made.exports
      action := .call (.made localName) }, imports)
  | _ => return (step, imports)

/-- The steps with the testcases they call, and the imports for these. -/
def resolveSteps (nested : Value → Path → Make Path) (source : Path) :
    List Import → List Step → Make (List Step × List Import)
  | imports, [] => return ([], imports)
  | imports, step :: rest => do
    let (step, imports) ← resolveStep nested source imports step
    let (rest, imports) ← resolveSteps nested source imports rest
    return (step :: rest, imports)

/-! ## Modules -/

/-- The lines by which a module finds the project root, so many levels above it. -/
def climb (levels : Nat) : String :=
  "import sys\nfrom pathlib import Path\nsys.path.insert(0, str(Path(__file__)"
    ++ String.join (List.replicate levels ".parent") ++ "))\n"

/-- The import lines of a module whose source lies so many levels below the root. -/
def importLines (levels : Nat) (imports : List Import) : List String :=
  if imports.isEmpty || levels = 0 then imports.map Import.line
  else climb levels :: imports.map Import.line

/-- The module of a testcase all of whose calls are resolved; `below` is its source relative to the
project root. -/
def script (settings : Settings) (testcase : Testcase) (className : String) (imports : List Import)
    (below : Path) : Except SchemaFault Script := do
  let steps ← testcase.steps.mapM Step.chain
  let config := testcase.config
  return {
    version := settings.runnerVersion
    source := Text.joinWith "/" below.segments
    className := "TestCase" ++ className
    imports := importLines below.components.length imports
    config := config.chain
    skip := config.skip.map Literal.double
    marks := config.marks.getD []
    parameters := config.parameters.map Literal.mapping
    callsTestcases := testcase.hasCall
    steps }

/-- A path relative to its project root. -/
def relative (p : Path) : Make Path := do
  let root ← findRoot p
  ofExcept .path (Naming.relative root p)

/-- The text of the module of a testcase. -/
def compile (testcase : Testcase) (className : String) (imports : List Import) : Make String := do
  let below ← relative testcase.config.source
  let script ← ofExcept .schema (script (← get).settings testcase className imports below)
  return script.render

/-- A source claims its class in the directory of its module; no other source may have claimed it. -/
def claimClass (output : Path) (className : String) (source : Path) : Make Unit := do
  let s ← get
  match s.claim? output.parent className with
  | some c =>
    if c.source.same source then return
    else throw (.collision (.sameClass c.source source className output.parent))
  | none => set { s with classes := s.classes ++ [ClassClaim.mk output.parent className source] }

/-- The text of a module is written. -/
def emit (text : String) (output : Path) : Make Unit := do
  match output.parent? with
  | none => throw (.path (.noParent output))
  | some directory => onDisk (Emission.emit (← get).settings.packageMarker text directory output)

/-- A source path with its segments below the project root sanitized. -/
def tidied (source : Path) : Make Path := do
  let root ← findRoot source
  let stemRoot ← findRoot source.withoutExtension
  ofExcept .path (Naming.tidy root stemRoot source)

/-- The module next to a source, and its class. -/
def output (source : Path) : Make (Path × String) := do
  let p ← tidied source
  return Naming.output p (← get).settings.generatedSuffix

/-- Where the module of a source goes, and its class. -/
def place (source : Path) (outputDirectory : Option Path) : Make (Path × String) := do
  let (output, className) ← output source
  match outputDirectory, output.fileName? with
  | some directory, some name => return (directory.child name, className)
  | _, _ => return (output, className)

/-- A step with a source on the stack of those that are being made. -/
def whileResolving {α : Type} (source : Path) (step : Make α) : Make α := fun s =>
  let restore (t : Session) : Session := { t with resolving := t.resolving.dropLast }
  match step { s with resolving := s.resolving ++ [source] } with
  | .ok a t => .ok a (restore t)
  | .error e t => .error e (restore t)

/-- A module that has not been made is made, with the testcases it calls made by `nested`. -/
def build (nested : Value → Path → Make Path) (testcase : Testcase) (output : Path)
    (className : String) : Make Unit := do
  let source := testcase.config.source
  let (steps, imports) ←
    whileResolving source (resolveSteps nested source [] testcase.steps)
  let text ← compile { testcase with steps } className imports
  claimClass output className source
  emit text output
  modify (·.keep output ⟨source, className, testcase.config.exports.getD []⟩)

/-- The module of a document, with the testcases it calls made by `nested`. -/
def testcaseWith (nested : Value → Path → Make Path) (raw : Value) (source : Path)
    (outputDirectory : Option Path) : Make Path := do
  let source := source.normalize
  let document ← ofExcept .schema (Legacy.normalize raw)
  let testcase ← ofExcept .schema (Testcase.ofDocument document source)
  let (output, className) ← place source outputDirectory
  let s ← get
  match s.made? output with
  | some made =>
    if made.source.same source then return output
    else throw (.collision (.sameFile made.source source output))
  | none =>
    if s.resolving.any (·.same source) then
      throw (.cycle ((s.resolving.dropWhile fun p => !p.same source) ++ [source]))
    else
      build nested testcase output className
      return output

/-- The module of a document, with calls nested at most so deep. -/
def testcaseWithin : Nat → Value → Path → Option Path → Make Path
  | 0, _, source, _ => throw (.tooDeep source)
  | fuel + 1, raw, source, outputDirectory =>
    testcaseWith (fun content p => testcaseWithin fuel content p none) raw source outputDirectory

/-- How deep calls can be nested: the sources on the stack are distinct files, except for the first and
the last, and a file has at most four normalized paths (from the top or from the working directory, each
with or without a step above it). -/
def depthBound (d : Disk) : Nat := 4 * d.fileCount + 2

/-- The module of a document that was read from `source`. -/
def testcase (raw : Value) (source : Path) (outputDirectory : Option Path) : Make Path := do
  testcaseWithin (depthBound (← get).disk) raw source outputDirectory

end Make

end TestScribe
