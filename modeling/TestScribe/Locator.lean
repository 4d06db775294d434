/-
# Finding the project root

The root of a project is fixed beforehand, or it is the nearest directory above a file that holds a
marker.  A directory that was searched before is remembered.

* `Locator` : how the root is found;
* `Locator.search` : the nearest directory with a marker;
* `Locator.find` : the root of a path, with what is remembered.
-/
import TestScribe.Disk

namespace TestScribe

/-- How the project root is found: always the same, or by a marker, with a fallback where there is none. -/
inductive Locator where
  | fixed (root : Path)
  | marker (name : String) (fallback : Path)
deriving DecidableEq, Repr

namespace Locator

/-- The directories searched before, each with its root. -/
abbrev Memo := List (Path × Path)

/-- What is remembered of a directory. -/
def known? (memo : Memo) (start : Path) : Option Path :=
  (memo.find? fun entry => entry.1.same start).map Prod.snd

/-- Where the search for the root of a path begins. -/
def start (d : Disk) (p : Path) : Path := if d.isDirectory p then p else p.parent

/-- The nearest directory, from `start` upwards, that holds the marker. -/
def search (d : Disk) (name : String) (fallback start : Path) : Path :=
  (start.ancestors.find? fun directory => d.isFile (directory.child name)).getD fallback

/-- The root of a path, and what is remembered afterwards. -/
def find (l : Locator) (d : Disk) (memo : Memo) (p : Path) : Path × Memo :=
  match l with
  | .fixed root => (root, memo)
  | .marker name fallback =>
    let origin := start d p
    match known? memo origin with
    | some root => (root, memo)
    | none =>
      let root := search d name fallback origin
      (root, (origin, root) :: memo)

end Locator

end TestScribe
