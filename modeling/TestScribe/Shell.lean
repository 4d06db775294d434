/-
# Running shell scripts

A script is run on a disk with its arguments.  What it writes to its error stream is kept; what it
writes to its output stream is not.

* `Shell.Machine` : the state of a run;
* `Shell.Pattern.matches` : patterns with wildcards;
* `Shell.run` : a script.
-/
import TestScribe.Disk
import TestScribe.Shell.Syntax

namespace TestScribe.Shell

/-- The state of a run: the disk, the arguments (the name of the script first), the status of the last
command, what was complained of, and whether the script has ended. -/
structure Machine where
  disk : Disk
  arguments : List String
  status : Nat
  complaint : String
  finished : Bool

/-! ## Words -/

/-- The value of a parameter; those that are not known are empty. -/
def Machine.parameter (m : Machine) (name : String) : String :=
  if name = "?" then Nat.repr m.status
  else if name = "#" then Nat.repr (m.arguments.length - 1)
  else if name = "@" || name = "*" then Text.joinWith " " m.arguments.tail
  else
    match Text.numeral? 10 name.toList with
    | some n => m.arguments[n]?.getD ""
    | none => ""

/-- The characters of a word, each with whether it is quoted. -/
def Machine.characters (m : Machine) (w : Word) : List (Char × Bool) :=
  w.flatMap fun
    | .text chars quoted => chars.map (·, quoted)
    | .parameter name quoted => (m.parameter name).toList.map (·, quoted)

/-- The text of a word. -/
def Machine.text (m : Machine) (w : Word) : String :=
  String.ofList ((m.characters w).map Prod.fst)

/-- Whether a part of a word is quoted. -/
def Part.isQuoted : Part → Bool
  | .text _ quoted => quoted
  | .parameter _ quoted => quoted

/-- The texts of some words; an empty one without quotes is none. -/
def Machine.texts (m : Machine) (ws : List Word) : List String :=
  ws.filterMap fun w =>
    let s := m.text w
    if s.isEmpty && !w.any Part.isQuoted then none else some s

/-- Whether characters match a pattern: unquoted, an asterisk stands for any characters and a question
mark for one. -/
def Pattern.matches : List (Char × Bool) → List Char → Bool
  | [], text => text.isEmpty
  | (c, quoted) :: pattern, text =>
    if c == '*' && !quoted then
      (List.range (text.length + 1)).any fun n => Pattern.matches pattern (text.drop n)
    else
      match text with
      | d :: rest => (c == d || (c == '?' && !quoted)) && Pattern.matches pattern rest
      | [] => false

/-! ## Output -/

/-- Where a stream goes: nowhere, to the complaints, or to the end of a file. -/
inductive Sink where
  | nowhere
  | complaints
  | file (p : Path)
deriving DecidableEq, Repr

/-- Where the output and the error stream go. -/
structure Streams where
  output : Sink := .nowhere
  error : Sink := .complaints
deriving DecidableEq, Repr

/-- A file is written, if that is possible. -/
def Machine.store? (m : Machine) (p : Path) (content : ByteArray) : Option Machine :=
  match Disk.write p content m.disk with
  | .ok _ d => some { m with disk := d }
  | .error _ _ => none

/-- A text goes to where a stream goes. -/
def Machine.put (m : Machine) (sink : Sink) (text : String) : Machine :=
  match sink with
  | .nowhere => m
  | .complaints => { m with complaint := m.complaint ++ text }
  | .file p => (m.store? p ((m.disk.read? p).getD .empty ++ text.toUTF8)).getD m

/-- A complaint in the name of the script. -/
def Machine.complain (m : Machine) (text : String) : Machine :=
  m.put .complaints (m.arguments.headD "sh" ++ ": 1: " ++ text ++ "\n")

/-- A stream is sent elsewhere; none with the complaint if that is not possible. -/
def redirect (m : Machine) (s : Streams) (r : Redirect) : Except String (Machine × Streams) :=
  let send (m : Machine) (sink : Sink) : Machine × Streams :=
    (m, if r.stream = 1 then { s with output := sink }
      else if r.stream = 2 then { s with error := sink }
      else s)
  let opened (w : Word) (content : Path → ByteArray) : Except String (Machine × Streams) :=
    let p := Path.ofString (m.text w)
    match m.store? p (content p) with
    | some m => .ok (send m (.file p))
    | none => .error ("cannot create " ++ p.text ++ ": Directory nonexistent")
  match r.goal with
  | .replace w => opened w fun _ => .empty
  | .append w => opened w fun p => (m.disk.read? p).getD .empty
  | .stream w =>
    if m.text w = "1" then .ok (send m s.output)
    else if m.text w = "2" then .ok (send m s.error)
    else .error (m.text w ++ ": Bad file descriptor")

/-- One redirection after the other. -/
def redirects (m : Machine) (s : Streams) : List Redirect → Except String (Machine × Streams)
  | [] => .ok (m, s)
  | r :: rest =>
    match redirect m s r with
    | .ok (m, s) => redirects m s rest
    | .error e => .error e

/-! ## Commands -/

/-- Escapes of printed text. -/
def unescape : List Char → List Char
  | '\\' :: 'n' :: rest => '\n' :: unescape rest
  | '\\' :: 't' :: rest => '\t' :: unescape rest
  | '\\' :: 'r' :: rest => '\r' :: unescape rest
  | '\\' :: '\\' :: rest => '\\' :: unescape rest
  | c :: rest => c :: unescape rest
  | [] => []

/-- A format with its places filled in order. -/
def fillIn : List Char → List String → List Char
  | '%' :: '%' :: rest, args => '%' :: fillIn rest args
  | '%' :: 's' :: rest, arg :: args => arg.toList ++ fillIn rest args
  | '%' :: 's' :: rest, [] => fillIn rest []
  | c :: rest, args => c :: fillIn rest args
  | [], _ => []

/-- Whether a test holds. -/
def test (d : Disk) : List String → Bool
  | ["!", a] => a.isEmpty
  | ["-n", a] => !a.isEmpty
  | ["-z", a] => a.isEmpty
  | ["-e", a] => d.exists? (.ofString a)
  | ["-f", a] => d.isFile (.ofString a)
  | ["-d", a] => d.isDirectory (.ofString a)
  | [a, "=", b] => a = b
  | [a, "!=", b] => a ≠ b
  | [a] => !a.isEmpty
  | _ => false

/-- The status of a truth value. -/
def statusOf (b : Bool) : Nat := if b then 0 else 1

/-- Files are printed one after the other. -/
def printFiles (m : Machine) (s : Streams) : List String → Machine
  | [] => m
  | name :: rest =>
    match m.disk.read? (.ofString name) with
    | some content =>
      match Utf8.decode content.toList with
      | .ok text => printFiles (m.put s.output text) s rest
      | .error _ => printFiles m s rest
    | none =>
      printFiles { m.put s.error ("cat: " ++ name ++ ": No such file or directory\n") with status := 1 }
        s rest

/-- Files are removed one after the other; missing ones matter only without `force`. -/
def removeFiles (m : Machine) (s : Streams) (force : Bool) : List String → Machine
  | [] => m
  | name :: rest =>
    let p := Path.ofString name
    match m.disk.isFile p, Disk.removeTree p m.disk with
    | true, .ok _ d => removeFiles { m with disk := d } s force rest
    | _, _ =>
      let m := if force then m else
        { m.put s.error ("rm: cannot remove '" ++ name ++ "': No such file or directory\n") with
          status := 1 }
      removeFiles m s force rest

/-- A command with its arguments. -/
def command (m : Machine) (s : Streams) (name : String) (args : List String) : Machine :=
  let done (m : Machine) : Machine := { m with status := 0 }
  if name = "echo" then
    let (args, ending) := if args.head? = some "-n" then (args.tail, "") else (args, "\n")
    done (m.put s.output
      (String.ofList (unescape (Text.joinWith " " args).toList) ++ ending))
  else if name = "printf" then
    done (m.put s.output
      (String.ofList (fillIn (unescape (args.headD "").toList) args.tail)))
  else if name = "true" || name = ":" then done m
  else if name = "false" then { m with status := 1 }
  else if name = "exit" then
    { m with
      status := ((args.head?.bind fun a => Text.numeral? 10 a.toList).getD m.status) % 256
      finished := true }
  else if name = "test" then { m with status := statusOf (test m.disk args) }
  else if name = "[" then { m with status := statusOf (test m.disk args.dropLast) }
  else if name = "cat" then printFiles (done m) s args
  else if name = "rm" then
    let force := args.head? = some "-f"
    removeFiles (done m) s force (if force then args.tail else args)
  else
    let message := m.arguments.headD "sh" ++ ": 1: " ++ name ++ ": not found\n"
    { m.put s.error message with status := 127 }

/-- A simple command. -/
def simple (m : Machine) (words : List Word) (rs : List Redirect) : Machine :=
  match redirects m {} rs with
  | .error e => { m.complain e with status := 2 }
  | .ok (m, s) =>
    match m.texts words with
    | [] => { m with status := 0 }
    | name :: args => command m s name args

/-! ## Scripts -/

mutual

/-- A script, unless the run has ended. -/
def run (m : Machine) : Script → Machine
  | .nothing => m
  | .command words rs => if m.finished then m else simple m words rs
  | .andThen first second =>
    let m := run m first
    if m.finished || m.status ≠ 0 then m else run m second
  | .orElse first second =>
    let m := run m first
    if m.finished || m.status = 0 then m else run m second
  | .after first second =>
    let m := run m first
    if m.finished then m else run m second
  | .negated inner =>
    let m := run m inner
    if m.finished then m else { m with status := statusOf (m.status ≠ 0) }
  | .choose subject branches =>
    runBranch { m with status := 0 } (m.text subject).toList branches
  | .branch condition positive negative =>
    let m := run m condition
    if m.finished then m
    else if m.status = 0 then run m positive
    else run { m with status := 0 } negative

/-- The first branch one of whose patterns matches. -/
def runBranch (m : Machine) (subject : List Char) : List (List Word × Script) → Machine
  | [] => m
  | (patterns, body) :: rest =>
    if patterns.any fun w => Pattern.matches (m.characters w) subject then run m body
    else runBranch m subject rest

end

/-- A script text with its arguments, the name of the script first. -/
def runText (d : Disk) (text : String) (arguments : List String) : Machine :=
  let m : Machine := ⟨d, arguments, 0, "", false⟩
  match parse? text with
  | some script => run m script
  | none => { m.complain "Syntax error" with status := 2 }

end TestScribe.Shell
