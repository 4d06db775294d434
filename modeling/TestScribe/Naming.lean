/-
# Names taken from paths

A generated module lies next to its source, under a path whose segments can be Python names, and its
class is named after the file.

* `Naming.sanitize` : a path segment as a module name;
* `Naming.className` : a file stem as a class name;
* `Naming.tidy` : a source path with its segments sanitized;
* `Naming.output` : the file of the generated module, and its class;
* `Naming.moduleName` : the dotted name under which a module is imported.
-/
import TestScribe.Fault
import TestScribe.Text.Case

namespace TestScribe.Naming

/-! ## Segments and classes -/

/-- Characters of a segment that give way to an underscore. -/
def isReplaced (c : Char) : Bool := c == ' ' || c == '.' || c == '-'

/-- A segment as a module name: a letter goes before a leading digit, and an underscore takes the place
of blanks, dots and hyphens.  A segment that begins with a dot stays as it is. -/
def sanitize (segment : String) : String :=
  match segment.toList with
  | '.' :: _ => segment
  | cs =>
    let lead := if (cs.head?.map Text.isDigit).getD false then ['T'] else []
    String.ofList (lead ++ cs.map fun c => if isReplaced c then '_' else c)

/-- The characters of a class name: a letter after another letter is lower-case, any other is
upper-case, and underscores are dropped.  `after` tells whether a letter came before. -/
def titleCase (after : Bool) : List Char → List Char
  | [] => []
  | c :: rest =>
    if Text.isLowercase c || Text.isUppercase c then
      (if after then Text.lowerOf c else Text.upperOf c) ++ titleCase true rest
    else if c = '_' then titleCase false rest
    else c :: titleCase false rest

/-- The class name for a file stem. -/
def className (stem : String) : String := String.ofList (titleCase false stem.toList)

/-! ## Paths below the project root -/

/-- A path relative to the project root. -/
def relative (root p : Path) : Except PathFault Path :=
  match root.after? p with
  | some q => .ok q
  | none => .error (.outsideRoot p root)

/-- The segments of a source path below the root, sanitized; the last one has the extension after it, in
lower case. -/
def tidySegments (stem : Path) (extension : Option String) : List String :=
  let segments := stem.segments.map sanitize
  match extension, segments.reverse with
  | some e, last :: before => ((last ++ "." ++ Text.lower e) :: before).reverse
  | _, _ => segments

/-- A source path with every segment below its root sanitized.  The root of the path is `root`, and
`stemRoot` is that of the path without its extension.  A path that is the root itself but for an extension
stays as it is. -/
def tidy (root stemRoot p : Path) : Except PathFault Path := do
  let below ← relative stemRoot p.withoutExtension
  if below = Path.empty then return p
  else return (tidySegments below p.extension?).foldl Path.child root

/-- The file of the module for a sanitized source path, and the class in it. -/
def output (tidied : Path) (suffix : String) : Path × String :=
  let stem := tidied.stem?.getD ""
  (tidied.parent.child (stem ++ suffix), className stem)

/-- The dotted name of a generated module, whose path without the extension has the given root. -/
def moduleName (root p : Path) : Except PathFault String :=
  (relative root p.withoutExtension).map fun below => Text.joinWith "." below.segments

end TestScribe.Naming
