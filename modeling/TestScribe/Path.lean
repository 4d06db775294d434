/-
# Paths

A path is kept as it was written: where it starts, and the pieces between its separators, empty ones
and single dots among them.  What it means is the list of its components, in which those fillers no
longer occur.  Two paths are the same when their components are.

* `Path.ofString`, `Path.text` : a path and its written form;
* `Path.components` : the components of a path;
* `Path.parent?`, `Path.join`, `Path.fileName?`, `Path.stem?` : the usual operations;
* `Path.after?` : what remains of a path below another one;
* `Path.normalize` : a path without dots, found without looking at any file system.
-/
import TestScribe.Text.Cut

namespace TestScribe

/-- Where a path starts: at the root, at a written `.`, or at the place it is taken from. -/
inductive Anchor where
  | root
  | here
  | none
deriving DecidableEq, Repr, Inhabited

/-- A path as written: its start, and the pieces between separators that follow. -/
structure Path where
  anchor : Anchor
  pieces : List String
deriving DecidableEq, Repr, Inhabited

/-- A part of a path that means something. -/
inductive Component where
  | root
  | here
  | up
  | name (s : String)
deriving DecidableEq, Repr, Inhabited

/-- A component as written. -/
def Component.text : Component → String
  | .root => "/"
  | .here => "."
  | .up => ".."
  | .name s => s

namespace Path

/-! ## Written form -/

/-- The pieces of a text between separators; an empty text has none. -/
def piecesOf (cs : List Char) : List String :=
  if cs.isEmpty then [] else (Text.splitChars '/' cs).map String.ofList

/-- The path that a text writes. -/
def ofString (s : String) : Path :=
  match s.toList with
  | '/' :: rest => ⟨.root, piecesOf rest⟩
  | cs =>
    match piecesOf cs with
    | "." :: rest => ⟨.here, rest⟩
    | pieces => ⟨.none, pieces⟩

/-- The text that writes a path. -/
def text (p : Path) : String :=
  match p.anchor, p.pieces with
  | .root, pieces => "/" ++ Text.joinWith "/" pieces
  | .here, [] => "."
  | .here, pieces => "./" ++ Text.joinWith "/" pieces
  | .none, pieces => Text.joinWith "/" pieces

/-- The path without any piece, which is the place it is taken from. -/
def empty : Path := ⟨.none, []⟩

/-- Whether a path starts at the root. -/
def isAbsolute (p : Path) : Bool := p.anchor = .root

/-! ## Components -/

/-- Pieces that mean nothing after the start of a path. -/
def isFiller (piece : String) : Bool := piece = "" || piece = "."

/-- The component that a piece stands for. -/
def componentOf? (piece : String) : Option Component :=
  if isFiller piece then none
  else if piece = ".." then some .up
  else some (.name piece)

/-- The component that the start of a path stands for. -/
def Anchor.components : Anchor → List Component
  | .root => [.root]
  | .here => [.here]
  | .none => []

/-- The components of a path. -/
def components (p : Path) : List Component :=
  Anchor.components p.anchor ++ p.pieces.filterMap componentOf?

/-- Whether two paths have the same components. -/
def same (p q : Path) : Bool := p.components = q.components

/-- The components as written. -/
def segments (p : Path) : List String := p.components.map Component.text

/-- Whether the components of `base` begin those of `p`. -/
def isBelow (base p : Path) : Bool := base.components.isPrefixOf p.components

/-! ## Parent and children -/

/-- The pieces without fillers at the end. -/
def trimEnd (pieces : List String) : List String :=
  (pieces.reverse.dropWhile isFiller).reverse

/-- The path without its last component; the root and the empty path have no parent. -/
def parent? (p : Path) : Option Path :=
  match p.components.getLast? with
  | none => none
  | some .root => none
  | some .here => some empty
  | some _ => some { p with pieces := trimEnd (trimEnd p.pieces).dropLast }

/-- The parent, the empty path where there is none. -/
def parent (p : Path) : Path := p.parent?.getD empty

/-- The path, its parent, and so on, as far as `fuel` parents up. -/
def ancestorsWithin : (fuel : Nat) → Path → List Path
  | 0, p => [p]
  | fuel + 1, p =>
    match p.parent? with
    | some q => p :: ancestorsWithin fuel q
    | none => [p]

/-- The path and everything above it, nearest first. -/
def ancestors (p : Path) : List Path := ancestorsWithin p.components.length p

/-- All pieces of a path that does not start at the root, a dot at the start included. -/
def allPieces (p : Path) : List String :=
  match p.anchor with
  | .here => "." :: p.pieces
  | _ => p.pieces

/-- The path `q` taken from `p`: an absolute one replaces `p`. -/
def join (p q : Path) : Path :=
  if q.isAbsolute then q
  else if p = empty then q
  else if q.allPieces = [] then
    (if (p.anchor = .root && p.pieces = []) || p.pieces.getLast? = some "" then p
    else { p with pieces := p.pieces ++ [""] })
  else if p.pieces.getLast? = some "" then { p with pieces := p.pieces.dropLast ++ q.allPieces }
  else { p with pieces := p.pieces ++ q.allPieces }

/-- The path that a text writes, taken from `p`. -/
def child (p : Path) (name : String) : Path := p.join (ofString name)

/-! ## File names -/

/-- The last component, where it is a name. -/
def fileName? (p : Path) : Option String :=
  match p.components.getLast? with
  | some (.name s) => some s
  | _ => none

/-- A file name cut at its last dot; a dot at the start does not count. -/
def cutName (name : String) : String × Option String :=
  let backwards := name.toList.reverse
  let last := backwards.takeWhile (· ≠ '.')
  match backwards.drop last.length with
  | _ :: [] => (name, none)
  | _ :: before => (String.ofList before.reverse, some (String.ofList last.reverse))
  | [] => (name, none)

/-- The file name up to its last dot. -/
def stem? (p : Path) : Option String := p.fileName?.map fun n => (cutName n).1

/-- The file name after its last dot. -/
def extension? (p : Path) : Option String := p.fileName?.bind fun n => (cutName n).2

/-- What stands in place of a last piece whose extension is cut off.  A stem that is a single dot takes
the dot of the extension along, so that it reads as `..`. -/
def bareName (name : String) : String :=
  match cutName name with
  | (stem, some _) => if stem = "." then ".." else stem
  | (stem, none) => stem

/-- The path with the extension taken off its file name, and with nothing after that name. -/
def withoutExtension (p : Path) : Path :=
  match p.fileName? with
  | some name =>
    let bare := if trimEnd p.pieces = p.pieces then bareName name else (cutName name).1
    { p with pieces := (trimEnd p.pieces).dropLast ++ [bare] }
  | none => p

/-- The path whose written form is longer by a text. -/
def extend (p : Path) (more : String) : Path := ofString (p.text ++ more)

/-! ## Below another path -/

/-- The pieces that remain when the given components are taken off the front. -/
def takeOff : List Component → List String → Option (List String)
  | [], pieces => some pieces
  | _ :: _, [] => none
  | c :: cs, piece :: pieces =>
    match componentOf? piece with
    | none => takeOff (c :: cs) pieces
    | some d => if c = d then takeOff cs pieces else none

/-- What follows `base` in `p`, none where `p` does not lie below `base`. -/
def after? (base p : Path) : Option Path :=
  let rest? :=
    match base.components, p.anchor with
    | .root :: cs, .root => takeOff cs p.pieces
    | .here :: cs, .here => takeOff cs p.pieces
    | cs, .none => takeOff cs p.pieces
    | _, _ => none
  if base.components = [] then some { p with pieces := trimEnd p.pieces }
  else rest?.map fun pieces => ⟨.none, trimEnd (pieces.dropWhile isFiller)⟩

/-! ## Normal form -/

/-- One component onto a path that is held backwards: `..` takes the last piece back, and stays when there
is none. -/
def settle (done : List String) : Component → List String
  | .root => done
  | .here => done
  | .up =>
    match done with
    | [] => [".."]
    | _ :: rest => rest
  | .name s => s :: done

/-- The path without `.` pieces and with every `..` taken together with the piece before it. -/
def normalize (p : Path) : Path :=
  ⟨if p.isAbsolute then .root else .none, (p.components.foldl settle []).reverse⟩

end Path

end TestScribe
