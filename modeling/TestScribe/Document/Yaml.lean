/-
# Reading YAML

The value of a text that holds one YAML document.

* `Yaml.value` : the value of a node, with anchors followed;
* `Yaml.read?` : the value of a text.
-/
import TestScribe.Document.Yaml.Node
import TestScribe.Document.Yaml.Plain

namespace TestScribe.Yaml

/-- How deep collections may be nested. -/
def depthLimit : Nat := 128

/-- Whether a tag is private to an application. -/
def isPrivate (tag : Option String) : Bool := tag.any (Text.beginsWith "!")

/-- How often a document may follow references, for each of its marks. -/
def followRate : Nat := 100

/-- A step of building a value; it counts the references followed, and may fail. -/
abbrev Build := StateT Nat Option

/-- A node with a reference followed. -/
def follow (d : Document) : Node → Build Node
  | .reference number => do
    let count := (← get) + 1
    set count
    if d.marks * followRate < count then failure
    else
      match d.anchor? number with
      | some node => return node
      | none => failure
  | node => return node

/-- A key is the text of a scalar, whatever its tag. -/
def key (d : Document) (node : Node) : Build String := do
  match ← follow d node with
  | .scalar _ _ text => return text
  | _ => failure

/-- The value of a scalar. -/
def scalarValue? (tag : Option String) (plain : Bool) (text : String) : Option Value :=
  if isPrivate tag then none
  else
    match tag with
    | some tag => Plain.taggedValue? tag text
    | none => if plain then Plain.value? text else some (.text text)

/-- The value of a node, with collections nested at most so deep.  A repeated key keeps its first place
and takes the last value. -/
def value (d : Document) : Nat → Node → Build Value
  | depth, node => do
    match ← follow d node with
    | .scalar tag plain text => (scalarValue? tag plain text : Option Value)
    | .reference _ => failure
    | .sequence tag items =>
      match depth with
      | 0 => failure
      | depth + 1 =>
        if isPrivate tag then failure else return .list (← items.mapM (value d depth))
    | .mapping tag entries =>
      match depth with
      | 0 => failure
      | depth + 1 =>
        if isPrivate tag then failure
        else
          let entries ← entries.mapM fun (k, v) => do
            let k ← key d k
            let v ← value d depth v
            pure (k, v)
          return .mapping (Mapping.merge [] entries)

/-- The value of a text that holds one document; an empty text holds nothing. -/
def read? (text : String) : Option Value := do
  let tokens ← Token.scan? text.toList
  let d ← Document.ofTokens? tokens
  match d.root with
  | none => some .null
  | some root => ((value d depthLimit root).run' 0 : Option Value)

end TestScribe.Yaml
