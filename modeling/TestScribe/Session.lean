/-
# Sessions

What is known while testcases are made: the modules made so far, the classes they define, the files to
run, and the sources that are being made.

* `Session` : the record;
* `Make` : a step that works on a session and may fail;
* `Session.made?`, `Session.keep` : look-up of a module, and one that was made;
* `Session.addToRun` : one more file to run.
-/
import TestScribe.Locator
import TestScribe.Settings

namespace TestScribe

/-- What a module was made from. -/
structure Made where
  source : Path
  /-- the class without its common beginning -/
  className : String
  /-- the variables that the testcase exports -/
  exports : List String
deriving DecidableEq, Repr

/-- Modules with one that was made at a path: after the others, or else in place of what was made there. -/
def Made.put (made : Made) (output : Path) : List (Path × Made) → List (Path × Made)
  | [] => [(output, made)]
  | entry :: rest =>
    if entry.1.same output then (entry.1, made) :: rest else entry :: put made output rest

/-- A class that a source claims in a directory. -/
structure ClassClaim where
  directory : Path
  className : String
  source : Path
deriving DecidableEq, Repr

/-- What is known while testcases are made. -/
structure Session where
  settings : Settings
  locator : Locator
  disk : Disk
  /-- roots found before -/
  roots : Locator.Memo := []
  /-- modules made so far, in the order in which their paths came up -/
  made : List (Path × Made) := []
  classes : List ClassClaim := []
  /-- files to run, in the order in which they were added -/
  runSet : List Path := []
  /-- sources that are being made, each called by the one before it -/
  resolving : List Path := []

/-- A step that works on a session; what it did before it failed stays done. -/
abbrev Make := EStateM Fault Session

namespace Session

/-- What the module at a path was made from. -/
def made? (s : Session) (p : Path) : Option Made :=
  (s.made.find? fun entry => entry.1.same p).map Prod.snd

/-- A module was made at a path. -/
def keep (s : Session) (output : Path) (made : Made) : Session :=
  { s with made := made.put output s.made }

/-- The source that claims a class in a directory. -/
def claim? (s : Session) (directory : Path) (className : String) : Option ClassClaim :=
  s.classes.find? fun c => c.directory.same directory && c.className = className

/-- One more file to run, unless it is one already. -/
def addToRun (s : Session) (p : Path) : Session :=
  if s.runSet.any (·.same p) then s else { s with runSet := s.runSet ++ [p] }

end Session

namespace Make

/-- A result that may be a fault of some kind. -/
def ofExcept {ε α : Type} (fault : ε → Fault) : Except ε α → Make α
  | .ok a => pure a
  | .error e => throw (fault e)

/-- An operation on the disk of the session. -/
def onDisk {α : Type} (operation : Disk.Operation α) : Make α := fun s =>
  match operation s.disk with
  | .ok a d => .ok a { s with disk := d }
  | .error e d => .error (.disk e) { s with disk := d }

/-- The project root of a path. -/
def findRoot (p : Path) : Make Path := modifyGet fun s =>
  let (root, roots) := s.locator.find s.disk s.roots p
  (root, { s with roots })

end Make

end TestScribe
