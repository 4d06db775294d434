/-
# The program

The outer layer: the file tree below the working directory is read, a run is carried out on it, and
what it changed is written back.
-/
import TestScribe.Command

namespace TestScribe.Main

/-- The environment variables that a run looks at. -/
def variableNames : List String :=
  ["FORMATTER", "FORMATTER_ARGS", "PARALLEL_FORMAT", "ROOT_MARKER", "GENERATED_SUFFIX",
    "PACKAGE_MARKER", "RUNNER_VERSION"].map ("HRMAKE_" ++ ·)

/-- The environment variables that are set. -/
def assigned : IO (List (String × String)) := do
  let found ← variableNames.mapM fun name => do
    return (← IO.getEnv name).map (name, ·)
  return found.filterMap id

/-- A listed entry, with all that it holds. -/
partial def readEntry (listed : IO.FS.DirEntry) : IO Entry := do
  if ← listed.path.isDir then
    let mut entries := []
    for inner in ← listed.path.readDir do
      entries := Entry.put inner.fileName (← readEntry inner) entries
    return .directory entries
  else return .file (← IO.FS.readBinFile listed.path)

/-- What a run has to write: a directory or a file at a path, or nothing any more. -/
inductive Change where
  | directory (p : String)
  | file (p : String) (content : ByteArray)
  | removed (p : String)

mutual

/-- The changes from one state of a directory to another. -/
partial def changes (lead : String) (before after : List (String × Entry)) : List Change :=
  let gone := before.filter fun (name, _) => (Entry.find? name after).isNone
  gone.map (fun (name, _) => .removed (lead ++ "/" ++ name))
    ++ after.flatMap fun (name, e) => changesOf (lead ++ "/" ++ name) (Entry.find? name before) e

/-- The changes at one path. -/
partial def changesOf (p : String) : Option Entry → Entry → List Change
  | some (.directory before), .directory after => changes p before after
  | _, .directory after => .directory p :: changes p [] after
  | some (.file before), .file after =>
    if before.data == after.data then [] else [.file p after]
  | _, .file after => [.file p after]

end

/-- A change is written. -/
def Change.write : Change → IO Unit
  | .directory p => IO.FS.createDirAll p
  | .file p content => IO.FS.writeBinFile p content
  | .removed p => do
    try IO.FS.removeDirAll p catch _ => IO.FS.removeFile p

/-- The entries of a directory that lies under the given names. -/
def nested (entries : List (String × Entry)) : List String → List (String × Entry)
  | [] => entries
  | name :: rest => [(name, .directory (nested entries rest))]

/-- The disk as it is seen from the working directory. -/
def readDisk : IO Disk := do
  let here ← IO.currentDir
  let names := (Path.ofString here.toString).pieces
  let mut entries := []
  for listed in ← here.readDir do
    entries := Entry.put listed.fileName (← readEntry listed) entries
  return ⟨nested entries names, names, []⟩

/-- One run. -/
def run (arguments : List String) : IO UInt32 := do
  let before ← readDisk
  let (answer, after) := Command.run before (← assigned) arguments
  for change in changes "" before.top after.top do
    change.write
  match answer with
  | .done text => IO.print text
  | .failed _ text => IO.eprintln ("error: " ++ text)
  | .usage => IO.eprintln "usage: make <PATHS>... [-o DIR] [--no-format] [-c FILE] [-v]"
  return answer.status.toUInt32

end TestScribe.Main

/-- The program. -/
def main (arguments : List String) : IO UInt32 := TestScribe.Main.run arguments
