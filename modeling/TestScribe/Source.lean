/-
# Source files

Testcase documents on the disk: a file is read by its extension, and a folder is searched for
documents and for modules that were generated from them.

* `Source.load` : the document in a file;
* `Source.isCandidate` : whether a file name is that of a document or of a generated module;
* `Source.inFolder` : the candidates below a folder.
-/
import TestScribe.Disk
import TestScribe.Document.Yaml
import TestScribe.Text.Case

namespace TestScribe.Source

/-- How a document is written. -/
inductive Format where
  | json
  | yaml
deriving DecidableEq, Repr

/-- The format of an extension. -/
def Format.ofExtension? (extension : String) : Option Format :=
  if extension = "json" then some .json
  else if extension = "yml" || extension = "yaml" then some .yaml
  else none

/-- The document of a text. -/
def Format.read (format : Format) (text : String) : Except FileFault Value :=
  match format with
  | .json =>
    match Json.read? text with
    | some v => .ok v
    | none => .error .notJson
  | .yaml =>
    match Yaml.read? text with
    | some v => .ok v
    | none => .error .notYaml

/-- The document of a file's content, by the file's extension; it must say something. -/
def document (extension : Option String) (content : ByteArray) : Except FileFault Value := do
  match Utf8.decode content.toList with
  | .error fault => .error (.notText fault)
  | .ok text =>
    match Format.ofExtension? (Text.lower (extension.getD "")) with
    | none => .error .unknownFormat
    | some format =>
      let v ← format.read text
      if v.isVacant then .error .vacant else .ok v

/-- The document in a file.  A file that cannot be read is a fault of the disk, not of the file. -/
def load (d : Disk) (p : Path) : Except Fault Value :=
  match d.read? p with
  | none => .error (.noFile p)
  | some content =>
    if d.isReadable p then (document p.extension? content).mapError (.file p)
    else .error (.disk (.device p))

/-- The endings of document names. -/
def endings : List String := [".yml", ".yaml", ".json"]

/-- Whether a file name is that of a document, or of a module with the given suffix. -/
def isCandidate (suffix : String) (p : Path) : Bool :=
  match p.fileName? with
  | none => false
  | some name =>
    (Text.lower suffix :: endings).any fun ending => Text.endsIn ending (Text.lower name)

/-- The candidates below a folder, in the order of their names. -/
def inFolder (d : Disk) (suffix : String) (folder : Path) : List Path :=
  (d.filesBelow folder).filter (isCandidate suffix)

end TestScribe.Source
