/-
# Formatters

A formatter is a program that is run once on each generated file.  The programs known here are those
that succeed, that fail, and the shell.

* `Program` : a program by its name;
* `Formatter` : a program with its arguments;
* `Make.format` : all files, formatted.
-/
import TestScribe.Session
import TestScribe.Shell

namespace TestScribe

/-- The programs that are installed. -/
inductive Program where
  | succeed
  | fail
  | shell
deriving DecidableEq, Repr

/-- What a program leaves behind: the disk, its status, and its complaint. -/
structure Finish where
  disk : Disk
  status : Nat
  complaint : String

namespace Program

/-- The name of a program. -/
def name : Program → String
  | succeed => "true"
  | fail => "false"
  | shell => "sh"

/-- All programs. -/
def all : List Program := [succeed, fail, shell]

/-- The directories that hold programs. -/
def directories : List String := ["/bin/", "/usr/bin/"]

/-- The program of a name, which may be given with its directory. -/
def ofName? (s : String) : Option Program :=
  all.find? fun p => s = p.name || directories.any fun d => s = d ++ p.name

/-- A program is run with arguments. -/
def run (d : Disk) (arguments : List String) : Program → Finish
  | succeed => ⟨d, 0, ""⟩
  | fail => ⟨d, 1, ""⟩
  | shell =>
    match arguments with
    | "-c" :: text :: rest =>
      let m := Shell.runText d text (if rest.isEmpty then ["sh"] else rest)
      ⟨m.disk, m.status, m.complaint⟩
    | name :: _ =>
      if d.isFile (.ofString name) then ⟨d, 0, ""⟩
      else ⟨d, 2, "sh: 0: cannot open " ++ name ++ ": No such file\n"⟩
    | [] => ⟨d, 0, ""⟩

end Program

/-- A program that formats files, its arguments, and whether the files are formatted side by side. -/
structure Formatter where
  program : String
  arguments : List String
  parallel : Bool
deriving DecidableEq, Repr

namespace Formatter

/-- The formatter that the settings name. -/
def ofSettings (s : Settings) : Except Fault Formatter :=
  s.formatterArguments.map fun arguments => ⟨s.formatter, arguments, s.parallelFormat⟩

/-- A file is formatted: the file follows the arguments of the program. -/
def formatOne (f : Formatter) (program : Program) (file : Path) : Make Unit := do
  let finish := program.run (← get).disk (f.arguments ++ [file.text])
  modify fun s => { s with disk := finish.disk }
  if finish.status = 0 then return
  else throw (.formatter file (Text.trim finish.complaint))

/-- Files are formatted one after the other, up to the first failure. -/
def inTurn (f : Formatter) (program : Program) : List Path → Make Unit
  | [] => return
  | file :: rest => do
    formatOne f program file
    inTurn f program rest

/-- All files are formatted, and then the first failure is reported. -/
def sideBySide (f : Formatter) (program : Program) : List Path → Make Unit
  | [] => return
  | file :: rest => fun s =>
    match formatOne f program file s with
    | .ok _ t => sideBySide f program rest t
    | .error e t =>
      match sideBySide f program rest t with
      | .ok _ u => .error e u
      | .error _ u => .error e u

end Formatter

/-- All files are formatted; the program must be installed if there are any. -/
def Make.format (f : Formatter) (files : List Path) : Make Unit :=
  if files.isEmpty then return
  else
    match Program.ofName? f.program with
    | none => throw (.noFormatter f.program)
    | some program =>
      if f.parallel && 1 < files.length then f.sideBySide program files
      else f.inTurn program files

end TestScribe
