/-
# Batches

All testcases under some files and folders are made.  A document that cannot be used is skipped with a
reason; any other failure ends the batch.

* `Report` : what a batch did;
* `Batch.file`, `Batch.argument` : one file, and one file or folder;
* `Batch.run` : a whole batch.
-/
import TestScribe.Formatter
import TestScribe.Making

namespace TestScribe

/-- A document that was skipped, and why. -/
structure Skip where
  file : Path
  reason : String
deriving DecidableEq, Repr

/-- What a batch did: the files to run, every module made in the session, and what was skipped. -/
structure Report where
  runSet : List Path := []
  generated : List Path := []
  skipped : List Skip := []
deriving DecidableEq, Repr

namespace Batch

/-- Why a document cannot be made, if that shows at once. -/
def unusable? (content : Value) : Option String :=
  match content with
  | .mapping m =>
    if Legacy.isApi m then none
    else
      match Mapping.get? "config" m with
      | none => some "Invalid testcase file, missing config"
      | some (.mapping _) => none
      | some _ => some "Invalid testcase file, config should be a mapping"
  | _ => some "Invalid content, should be a mapping"

/-- Whether a path names a generated module. -/
def isGenerated (suffix : String) (p : Path) : Bool :=
  Text.endsIn (Text.lower suffix) (Text.lower p.text)

/-- What becomes of a file: it is to be run, its module is, or it is skipped. -/
inductive Outcome where
  | run (p : Path)
  | skip (reason : String)
deriving DecidableEq, Repr

/-- A failure skips a file if it passes the test, and ends the batch otherwise. -/
def orSkip (skips : Fault → Bool) (step : Make Outcome) : Make Outcome := fun s =>
  match step s with
  | .ok o t => .ok o t
  | .error fault t => if skips fault then .ok (.skip fault.message) t else .error fault t

/-- What becomes of a document. -/
def documentOutcome (file : Path) (outputDirectory : Option Path) (content : Value) : Make Outcome :=
  match unusable? content with
  | some reason => return .skip reason
  | none => orSkip Fault.isRecoverable do
    return .run (← Make.testcase content file outputDirectory)

/-- What becomes of a file. -/
def outcome (file : Path) (outputDirectory : Option Path) : Make Outcome := do
  let s ← get
  if isGenerated s.settings.generatedSuffix file then return .run file
  else
    match Source.load s.disk file with
    | .ok content => documentOutcome file outputDirectory content
    | .error fault => if fault.isLoadFault then return .skip fault.message else throw fault

/-- The state of a batch: the session, and what was skipped so far. -/
abbrev Run := EStateM Fault (Session × List Skip)

/-- A step that does not skip anything. -/
def lift {α : Type} (step : Make α) : Run α := fun (s, skipped) =>
  match step s with
  | .ok a t => .ok a (t, skipped)
  | .error e t => .error e (t, skipped)

/-- One file. -/
def file (outputDirectory : Option Path) (p : Path) : Run Unit := do
  match ← lift (outcome p outputDirectory) with
  | .run q => modify fun (s, skipped) => (s.addToRun q, skipped)
  | .skip reason => modify fun (s, skipped) => (s, skipped ++ [⟨p, reason⟩])

/-- The files of an argument: those of a folder, or the file itself. -/
def filesOf? (s : Session) (p : Path) : Option (List Path) :=
  if s.disk.isDirectory p then some (Source.inFolder s.disk s.settings.generatedSuffix p)
  else if s.disk.isFile p then some [p]
  else none

/-- One file after the other. -/
def files (outputDirectory : Option Path) : List Path → Run Unit
  | [] => return
  | p :: rest => do
    file outputDirectory p
    files outputDirectory rest

/-- One argument: a file or a folder. -/
def argument (outputDirectory : Option Path) (p : Path) : Run Unit := do
  match filesOf? (← get).1 p with
  | some found => files outputDirectory found
  | none => throw (.missing (.argument p))

/-- One argument after the other. -/
def arguments (outputDirectory : Option Path) : List Path → Run Unit
  | [] => return
  | p :: rest => do
    argument outputDirectory p
    arguments outputDirectory rest

/-- A path from the working directory, normalized. -/
def absolute (d : Disk) (p : Path) : Path := (d.currentPath.join p).normalize

/-- An output directory is emptied, or made; it must not hold any of the inputs. -/
def prepare (inputs : List Path) (directory : Path) : Make Unit := do
  match inputs.find? (directory.isBelow ·) with
  | some input => throw (.path (.outputHoldsInput directory input))
  | none =>
    if (← get).disk.isDirectory directory then Make.onDisk (Disk.removeTree directory)
    Make.onDisk (Disk.createDirectories directory)

/-- All testcases under the inputs are made, and the modules formatted. -/
def run (inputs : List Path) (outputDirectory : Option Path) (formatter : Option Formatter) :
    Make Report := do
  if inputs.isEmpty then return {}
  else
    let d := (← get).disk
    let inputs := inputs.map (absolute d)
    let outputDirectory := outputDirectory.map (absolute d)
    if let some directory := outputDirectory then prepare inputs directory
    let skipped ← fun s =>
      match arguments outputDirectory inputs (s, []) with
      | .ok _ (t, skipped) => .ok skipped t
      | .error e (t, _) => .error e t
    let generated := (← get).made.map Prod.fst
    if let some f := formatter then Make.format f generated
    return { runSet := (← get).runSet, generated, skipped }

end Batch

end TestScribe
