/-
# YAML nodes

The tree that the tokens of a document describe.  Anchors are numbered; a node that refers to one holds
its number, and the document keeps what each number stands for.

* `Node` : the tree;
* `Document` : a tree with its anchors;
* `Document.ofTokens?` : the one document of a token stream.
-/
import TestScribe.Document.Yaml.Token

namespace TestScribe.Yaml

/-- A node: a scalar, a reference to an anchor, or a collection. -/
inductive Node where
  | scalar (tag : Option String) (plain : Bool) (text : String)
  | reference (anchor : Nat)
  | sequence (tag : Option String) (items : List Node)
  | mapping (tag : Option String) (entries : List (Node × Node))
deriving Repr, Inhabited

/-- The node of a place where nothing is written. -/
def Node.blank : Node := .scalar none true ""

/-- A node that carries an anchor: the anchor's number, and the place of the anchor among all. -/
structure Anchored where
  number : Nat
  place : Nat
  node : Node
deriving Repr

/-- The tree of a document, its anchored nodes, and how many marks (a scalar or a reference, the beginning
or the end of a collection) it consists of.  No tree belongs to an empty stream. -/
structure Document where
  root : Option Node
  anchored : List Anchored
  marks : Nat
deriving Repr

/-- What a number stands for: of several nodes the one whose anchor was written last. -/
def Document.anchor? (d : Document) (number : Nat) : Option Node :=
  let latest := d.anchored.foldl (fun best a =>
    if a.number = number && best.all (fun b : Anchored => b.place < a.place) then some a else best)
    none
  latest.map (·.node)

/-! ## Reading state -/

/-- The tokens to come, the tag handles in force, the numbers of the anchor names, the anchored nodes, how
many anchors and how many marks were met. -/
structure Reading where
  tokens : List Token
  handles : List (String × String)
  names : List (String × Nat)
  anchored : List Anchored
  anchors : Nat
  marks : Nat

/-- A step of reading, which may fail. -/
abbrev Read := StateT Reading Option

namespace Read

/-- The next token; a stream never ends without saying so. -/
def peek : Read Token := do
  return (← get).tokens.headD .streamEnd

/-- On by one token. -/
def advance : Read Unit := modify fun r => { r with tokens := r.tokens.tail }

/-- So many more marks. -/
def mark (n : Nat) : Read Unit := modify fun r => { r with marks := r.marks + n }

/-- The full form of a tag; the handle must be known. -/
def resolveTag (handle suffix : String) : Read String := do
  if handle.isEmpty then return suffix
  else
    match (← get).handles.find? (fun entry => entry.1 = handle) with
    | some entry => return entry.2 ++ suffix
    | none => failure

/-- An anchor gets a number: that of the count of names known so far. -/
def enterAnchor (name : String) : Read (Nat × Nat) := modifyGet fun r =>
  let number := r.names.length
  let names :=
    if r.names.any (fun entry => entry.1 = name) then
      r.names.map fun entry => if entry.1 = name then (name, number) else entry
    else r.names ++ [(name, number)]
  ((number, r.anchors), { r with names, anchors := r.anchors + 1 })

/-- The node of an anchor is known. -/
def leaveAnchor (anchor : Option (Nat × Nat)) (node : Node) : Read Unit :=
  match anchor with
  | some (number, place) =>
    modify fun r => { r with anchored := ⟨number, place, node⟩ :: r.anchored }
  | none => return

/-- An anchor and a tag before a node, in either order. -/
def properties : Read (Option String × Option (String × String)) := do
  match ← peek with
  | .anchor name =>
    advance
    match ← peek with
    | .tag handle suffix => advance; return (some name, some (handle, suffix))
    | _ => return (some name, none)
  | .tag handle suffix =>
    advance
    match ← peek with
    | .anchor name => advance; return (some name, some (handle, suffix))
    | _ => return (none, some (handle, suffix))
  | _ => return (none, none)

/-! ## Nodes -/

/-- Where the items of a block sequence, and the parts of a block mapping, may be missing. -/
def endsItem : Token → Bool
  | .blockEntry | .blockEnd => true
  | _ => false

/-- Where the parts of a block mapping may be missing. -/
def endsPart : Token → Bool
  | .key | .value | .blockEnd => true
  | _ => false

/-- Where an item of a sequence without indentation may be missing. -/
def endsBareItem : Token → Bool
  | .blockEntry | .key | .value | .blockEnd => true
  | _ => false

/-- Nothing is written: one mark. -/
def blank : Read Node := do
  mark 1
  return .blank

mutual

/-- A node.  Block collections are admitted where `block`, and sequences without indentation where
`bare`. -/
def node : Nat → (block bare : Bool) → Read Node
  | 0, _, _ => failure
  | fuel + 1, block, bare => do
    if let .reference name ← peek then
      advance
      mark 1
      match (← get).names.find? (fun entry => entry.1 = name) with
      | some entry => return .reference entry.2
      | none => failure
    else
      let (anchor, tag) ← properties
      let tag ← tag.mapM fun (handle, suffix) => resolveTag handle suffix
      let token ← peek
      let anchorNumber ← anchor.mapM enterAnchor
      let result ←
        match token with
        | .scalar plain text =>
          advance
          mark 1
          pure (.scalar (if tag = some "!" then none else tag)
            (plain && (tag.isNone || tag = some "!")) text)
        | .flowSequenceStart =>
          advance
          mark 2
          pure (.sequence tag (← flowItems fuel true))
        | .flowMappingStart =>
          advance
          mark 2
          pure (.mapping tag (← flowPairs fuel true))
        | .sequenceStart =>
          if block then
            advance
            mark 2
            pure (.sequence tag (← blockItems fuel))
          else bareNode tag anchor
        | .mappingStart =>
          if block then
            advance
            mark 2
            pure (.mapping tag (← blockPairs fuel))
          else bareNode tag anchor
        | .blockEntry =>
          if bare then
            mark 2
            pure (.sequence tag (← bareItems fuel))
          else bareNode tag anchor
        | _ => bareNode tag anchor
      leaveAnchor anchorNumber result
      return result
where
  /-- A node of which only the anchor or the tag is written. -/
  bareNode (tag : Option String) (anchor : Option String) : Read Node := do
    if tag.isSome || anchor.isSome then
      mark 1
      return .scalar tag tag.isNone ""
    else failure

/-- The items of a block sequence, up to its end. -/
def blockItems : Nat → Read (List Node)
  | 0 => failure
  | fuel + 1 => do
    match ← peek with
    | .blockEntry =>
      advance
      let item ← if endsItem (← peek) then blank else node fuel true false
      return item :: (← blockItems fuel)
    | .blockEnd => advance; return []
    | _ => failure

/-- The items of a sequence without indentation. -/
def bareItems : Nat → Read (List Node)
  | 0 => failure
  | fuel + 1 => do
    match ← peek with
    | .blockEntry =>
      advance
      let item ← if endsBareItem (← peek) then blank else node fuel true false
      return item :: (← bareItems fuel)
    | _ => return []

/-- The entries of a block mapping, up to its end. -/
def blockPairs : Nat → Read (List (Node × Node))
  | 0 => failure
  | fuel + 1 => do
    match ← peek with
    | .key =>
      advance
      let key ← if endsPart (← peek) then blank else node fuel true true
      let value ←
        match ← peek with
        | .value =>
          advance
          if endsPart (← peek) then blank else node fuel true true
        | _ => blank
      return (key, value) :: (← blockPairs fuel)
    | .blockEnd => advance; return []
    | _ => failure

/-- The items of a flow sequence, up to its end.  A key and its value without braces are a mapping of
their own. -/
def flowItems : Nat → (first : Bool) → Read (List Node)
  | 0, _ => failure
  | fuel + 1, first => do
    if (← peek) = .flowSequenceEnd then
      advance
      return []
    else
      if !first then
        if (← peek) = .flowEntry then advance else failure
      match ← peek with
      | .flowSequenceEnd => advance; return []
      | .key =>
        advance
        mark 2
        let key ←
          match ← peek with
          | .value | .flowEntry | .flowSequenceEnd => advance; blank
          | _ => node fuel false false
        let value ←
          match ← peek with
          | .value =>
            advance
            match ← peek with
            | .flowEntry | .flowSequenceEnd => blank
            | _ => node fuel false false
          | _ => blank
        return .mapping none [(key, value)] :: (← flowItems fuel false)
      | _ =>
        let item ← node fuel false false
        return item :: (← flowItems fuel false)

/-- The entries of a flow mapping, up to its end. -/
def flowPairs : Nat → (first : Bool) → Read (List (Node × Node))
  | 0, _ => failure
  | fuel + 1, first => do
    if (← peek) = .flowMappingEnd then
      advance
      return []
    else
      if !first then
        if (← peek) = .flowEntry then advance else failure
      match ← peek with
      | .flowMappingEnd => advance; return []
      | .key =>
        advance
        let key ←
          match ← peek with
          | .value | .flowEntry | .flowMappingEnd => blank
          | _ => node fuel false false
        let value ←
          match ← peek with
          | .value =>
            advance
            match ← peek with
            | .flowEntry | .flowMappingEnd => blank
            | _ => node fuel false false
          | _ => blank
        return (key, value) :: (← flowPairs fuel false)
      | _ =>
        let key ← node fuel false false
        let value ← blank
        return (key, value) :: (← flowPairs fuel false)

end

/-! ## Documents -/

/-- The handles that are known without a directive. -/
def standardHandles : List (String × String) :=
  [("!", "!"), ("!!", "tag:yaml.org,2002:")]

/-- The directives before a document; `version` says whether one of the version was met. -/
def directives : Nat → (version : Bool) → Read Unit
  | 0, _ => failure
  | fuel + 1, version => do
    match ← peek with
    | .versionDirective major minor =>
      if version || major ≠ 1 || (minor ≠ 1 && minor ≠ 2) then failure
      else
        advance
        directives fuel true
    | .tagDirective handle lead =>
      if (← get).handles.any (fun entry => entry.1 = handle) then failure
      else
        advance
        modify fun r => { r with handles := r.handles ++ [(handle, lead)] }
        directives fuel version
    | _ => modify fun r => { r with handles := r.handles ++ standardHandles }

/-- Whether a document ends before it has begun. -/
def endsDocument : Token → Bool
  | .versionDirective _ _ | .tagDirective _ _ | .documentStart | .documentEnd | .streamEnd => true
  | _ => false

/-- The one document of a stream. -/
def document (fuel : Nat) : Read (Option Node) := do
  match ← peek with
  | .streamEnd => return none
  | .versionDirective _ _ | .tagDirective _ _ | .documentStart =>
    directives fuel false
    if (← peek) = .documentStart then advance else failure
    let root ← if endsDocument (← peek) then blank else node fuel true false
    return some root
  | _ =>
    directives fuel false
    return some (← node fuel true false)

end Read

/-- The one document of a token stream: after it come only document ends. -/
def Document.ofTokens? (tokens : List Token) : Option Document := do
  let (root, r) ← (Read.document (2 * tokens.length + 2)).run ⟨tokens, [], [], [], 0, 0⟩
  if r.tokens.dropWhile (· = .documentEnd) = [.streamEnd] then
    some ⟨root, r.anchored, r.marks⟩
  else none

end TestScribe.Yaml
