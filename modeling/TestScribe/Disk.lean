/-
# The disk

A file tree with the place from which relative paths are taken, and the operations on it.  Entries of
a directory are kept in the order of their names.  An operation fails where the tree does not admit it
(a file where a directory should be), and also where the device fails it: `outages` says how the
operations to come end, and which places hold files that cannot be read.  A device may refuse an operation,
stop a write after some bytes, and stop a removal when a part of the directory is gone; what was done by
then stays done.

The tree has no links, so that each place has one chain of names from the top.  Directories can always be
listed, and nobody else changes the tree while a program works on it.

* `Entry`, `Disk` : file trees;
* `Failure`, `Outage` : what a device may do;
* `Disk.isFile`, `Disk.isDirectory`, `Disk.read?`, `Disk.isReadable` : what is at a path;
* `Disk.createDirectories`, `Disk.write`, `Disk.rename`, `Disk.removeTree` : the operations.
-/
import TestScribe.Fault

namespace TestScribe

/-- A file or a directory; the entries of a directory are in the order of their names. -/
inductive Entry where
  | file (content : ByteArray)
  | directory (entries : List (String × Entry))
deriving Inhabited

/-- How a device fails an operation: it refuses it outright, it stops a write after some bytes, or it stops
the removal of a directory when what the given names lead to, from the directory, is gone. -/
inductive Failure where
  | refused
  | cutShort (bytes : Nat)
  | stopped (gone : List (List String))
deriving DecidableEq, Repr

/-- What is to be known of a device: the file at a place cannot be read, or how an operation to come ends. -/
inductive Outage where
  | unreadable (names : List String)
  | operation (fate : Option Failure)
deriving DecidableEq, Repr

/-- A file tree, the names that lead to the working directory, and what is to be known of the device;
operations beyond the list go through. -/
structure Disk where
  top : List (String × Entry)
  workingDirectory : List String
  outages : List Outage
deriving Inhabited

/-! ## Outages -/

namespace Outage

/-- How an operation ends, if that is what is said. -/
def fate? : Outage → Option (Option Failure)
  | .unreadable _ => none
  | .operation fate => some fate

/-- The place that cannot be read, if that is what is said. -/
def place? : Outage → Option (List String)
  | .unreadable names => some names
  | .operation _ => none

/-- What is left to say after one operation. -/
def passed : List Outage → List Outage
  | [] => []
  | .unreadable names :: rest => .unreadable names :: passed rest
  | .operation _ :: rest => rest

end Outage

/-! ## Entries -/

namespace Entry

/-- The entry of a name. -/
def find? (name : String) : List (String × Entry) → Option Entry
  | [] => none
  | (n, e) :: rest => if n = name then some e else find? name rest

/-- The entries with one more, or with one replaced. -/
def put (name : String) (entry : Entry) : List (String × Entry) → List (String × Entry)
  | [] => [(name, entry)]
  | (n, e) :: rest =>
    if n = name then (name, entry) :: rest
    else if name < n then (name, entry) :: (n, e) :: rest
    else (n, e) :: put name entry rest

/-- The entries without one. -/
def drop (name : String) (entries : List (String × Entry)) : List (String × Entry) :=
  entries.filter fun entry => entry.1 ≠ name

/-- What the given names lead to, from a directory. -/
def at? (entries : List (String × Entry)) : List String → Option Entry
  | [] => some (.directory entries)
  | [name] => find? name entries
  | name :: more =>
    match find? name entries with
    | some (.directory inner) => at? inner more
    | _ => none

/-- The entries after the entry that the names lead to is replaced (or taken away for none); directories on
the way must be there. -/
def update (entry : Option Entry) (entries : List (String × Entry)) :
    List String → List (String × Entry)
  | [] => entries
  | [name] =>
    match entry with
    | some e => put name e entries
    | none => drop name entries
  | name :: more =>
    match find? name entries with
    | some (.directory inner) => put name (.directory (update entry inner more)) entries
    | _ => entries

mutual

/-- The files of an entry, each by its path, in the order of their names. -/
def files (path : Path) : Entry → List Path
  | .file _ => [path]
  | .directory entries => filesOf path entries

/-- The files of the entries of a directory. -/
def filesOf (path : Path) : List (String × Entry) → List Path
  | [] => []
  | (name, e) :: rest => files (path.child name) e ++ filesOf path rest

end

mutual

/-- How many files an entry holds. -/
def count : Entry → Nat
  | .file _ => 1
  | .directory entries => countAll entries

/-- How many files some entries hold. -/
def countAll : List (String × Entry) → Nat
  | [] => 0
  | (_, e) :: rest => count e + countAll rest

end

end Entry

/-! ## Looking up paths -/

namespace Disk

/-- What some names lead to from the top. -/
def at? (d : Disk) (names : List String) : Option Entry := Entry.at? d.top names

/-- Whether some names lead to a directory. -/
def hasDirectory (d : Disk) (names : List String) : Bool :=
  match d.at? names with
  | some (.directory _) => true
  | _ => false

/-- The working directory as a path. -/
def currentPath (d : Disk) : Path := ⟨.root, d.workingDirectory⟩

/-- Where a path starts. -/
def start (d : Disk) (p : Path) : List String :=
  if p.isAbsolute then [] else d.workingDirectory

/-- The names that a piece leads to; it is looked up in a directory. -/
def step? (d : Disk) (names : List String) (piece : String) : Option (List String) :=
  if !d.hasDirectory names then none
  else if Path.isFiller piece then some names
  else if piece = ".." then some names.dropLast
  else if (d.at? (names ++ [piece])).isSome then some (names ++ [piece])
  else none

/-- The names that a path leads to, if anything is there. -/
def locate? (d : Disk) (p : Path) : Option (List String) :=
  if p = Path.empty then none else p.allPieces.foldlM d.step? (d.start p)

/-- What is at a path. -/
def entry? (d : Disk) (p : Path) : Option Entry := (d.locate? p).bind d.at?

/-- Whether anything is at a path. -/
def exists? (d : Disk) (p : Path) : Bool := (d.entry? p).isSome

/-- Whether a file is at a path. -/
def isFile (d : Disk) (p : Path) : Bool :=
  match d.entry? p with
  | some (.file _) => true
  | _ => false

/-- Whether a directory is at a path. -/
def isDirectory (d : Disk) (p : Path) : Bool :=
  match d.entry? p with
  | some (.directory _) => true
  | _ => false

/-- The content of the file at a path. -/
def read? (d : Disk) (p : Path) : Option ByteArray :=
  match d.entry? p with
  | some (.file content) => some content
  | _ => none

/-- The places whose files cannot be read. -/
def unreadable (d : Disk) : List (List String) := d.outages.filterMap Outage.place?

/-- Whether the file at a path can be read. -/
def isReadable (d : Disk) (p : Path) : Bool :=
  match d.locate? p with
  | some names => !d.unreadable.contains names
  | none => false

/-- The files below a path, or the path itself if it is a file; directories are listed in the order of
their names. -/
def filesBelow (d : Disk) (p : Path) : List Path :=
  match d.entry? p with
  | some e => Entry.files p e
  | none => []

/-- How many files the disk holds. -/
def fileCount (d : Disk) : Nat := Entry.countAll d.top

/-- The names that a new file at a path would have: its directory must be there. -/
def target? (d : Disk) (p : Path) : Option (List String) :=
  match p.allPieces.reverse with
  | [] => none
  | last :: before =>
    if Path.isFiller last || last = ".." then none
    else
      match before.reverse.foldlM d.step? (d.start p) with
      | some names => if d.hasDirectory names then some (names ++ [last]) else none
      | none => none

/-! ## Operations -/

/-- An operation on a disk; what it did before it failed stays done. -/
abbrev Operation := EStateM DiskFault Disk

/-- How the operations to come end. -/
def fates (d : Disk) : List (Option Failure) := d.outages.filterMap Outage.fate?

/-- How the coming operation ends. -/
def fate (d : Disk) : Option Failure := d.fates.head?.getD none

/-- The disk when the device has dealt with one operation more. -/
def passed (d : Disk) : Disk := { d with outages := Outage.passed d.outages }

/-- The device deals with an operation. -/
def nextFate : Operation (Option Failure) := modifyGet fun d => (d.fate, d.passed)

/-- The entry that some names lead to is replaced, or taken away for none. -/
def place (names : List String) (entry : Option Entry) : Operation Unit :=
  modify fun d => { d with top := Entry.update entry d.top names }

/-- What some names lead to is taken away with all that it holds.  The top of the tree is only emptied: it
cannot be removed itself. -/
def clear (names : List String) : Operation Unit :=
  modify fun d => { d with top := if names = [] then [] else Entry.update none d.top names }

/-- Directories are made along the pieces of a path, starting from the directory of some names. -/
def makeAlong (p : Path) (names : List String) : List String → Operation Unit
  | [] => do
    if (← get).hasDirectory names then return else throw (.notDirectory p)
  | piece :: rest => do
    let d ← get
    if !d.hasDirectory names then throw (.notDirectory p)
    else if Path.isFiller piece then makeAlong p names rest
    else if piece = ".." then makeAlong p names.dropLast rest
    else
      if (d.at? (names ++ [piece])).isNone then place (names ++ [piece]) (some (.directory []))
      makeAlong p (names ++ [piece]) rest

/-- The directory at a path is made, with those above it that are missing. -/
def createDirectories (p : Path) : Operation Unit := do
  match ← nextFate with
  | some _ => throw (.device p)
  | none => if p = Path.empty then return else makeAlong p ((← get).start p) p.allPieces

/-- A file is written, or written over. -/
def write (p : Path) (content : ByteArray) : Operation Unit := do
  match (← get).target? p with
  | none => throw (.notFound p)
  | some names =>
    if (← get).hasDirectory names then throw (.isDirectory p)
    else
      match ← nextFate with
      | some (.cutShort bytes) =>
        place names (some (.file (content.extract 0 bytes)))
        throw (.device p)
      | some _ => throw (.device p)
      | none => place names (some (.file content))

/-- A file gets another name, in place of the file that may have had it. -/
def rename (source goal : Path) : Operation Unit := do
  let d ← get
  match d.read? source, d.locate? source, d.target? goal with
  | some content, some names, some newNames =>
    if d.hasDirectory newNames then throw (.isDirectory goal)
    else
      match ← nextFate with
      | some _ => throw (.device goal)
      | none =>
        place names none
        place newNames (some (.file content))
  | _, _, _ => throw (.notFound goal)

/-- A directory is removed with all that it holds.  A removal that stops leaves what it did not come to. -/
def removeTree (p : Path) : Operation Unit := do
  match (← get).locate? p with
  | none => throw (.notFound p)
  | some names =>
    match ← nextFate with
    | some (.stopped gone) =>
      gone.forM fun below => clear (names ++ below)
      throw (.device p)
    | some _ => throw (.device p)
    | none =>
      clear names
      if names = [] then throw (.device p)

end Disk

end TestScribe
