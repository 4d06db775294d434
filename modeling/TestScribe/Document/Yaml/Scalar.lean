/-
# The text of YAML scalars

Plain, quoted and block scalars are read from a cursor.  Lines of a plain or quoted scalar are folded:
one line end between two lines becomes a space, and of several the first is dropped.

* `Fold` : blank space seen since the last visible character;
* `Scalar.plain?`, `Scalar.quoted?`, `Scalar.block?` : the scalars.
-/
import TestScribe.Document.Yaml.Cursor

namespace TestScribe.Yaml

/-! ## Folding -/

/-- Blank space since the last visible character: gaps within the line, or the first line end and those
that follow.  Everything is in reading order. -/
structure Fold where
  gaps : List Char
  firstBreak : List Char
  laterBreaks : List Char
  newLine : Bool
deriving Repr

namespace Fold

/-- No blank space. -/
def none : Fold := ⟨[], [], [], false⟩

/-- The state after a line end that was written away. -/
def joined : Fold := ⟨[], [], [], true⟩

/-- What line ends become. -/
def breaks (f : Fold) : List Char :=
  match f.firstBreak with
  | '\n' :: _ => if f.laterBreaks.isEmpty then [' '] else f.laterBreaks
  | _ => f.firstBreak ++ f.laterBreaks

/-- What the blank space becomes. -/
def text (f : Fold) : List Char := if f.newLine then f.breaks else f.gaps

/-- One more gap: it counts only within a line. -/
def addGap (f : Fold) (c : Char) : Fold :=
  if f.newLine then f else { f with gaps := f.gaps ++ [c] }

/-- One more line end. -/
def addBreak (f : Fold) (b : List Char) : Fold :=
  if f.newLine then { f with laterBreaks := f.laterBreaks ++ b }
  else ⟨[], b, f.laterBreaks, true⟩

/-- The blank space here, added to what was seen.  A tab at a column below `margin` on a new line is
refused. -/
def read? (margin : Nat) : Nat → Fold → Cursor → Option (Fold × Cursor)
  | 0, f, c => some (f, c)
  | fuel + 1, f, c =>
    match c.rest with
    | [] => some (f, c)
    | d :: _ =>
      if isGap d then
        if f.newLine && c.column < margin && d == '\t' then Option.none
        else read? margin fuel (f.addGap d) c.skip
      else if isBreak d then
        let (b, c) := c.takeBreak
        read? margin fuel (f.addBreak b) c
      else some (f, c)

end Fold

namespace Scalar

/-! ## Plain scalars -/

/-- The punctuation of flow collections. -/
def isFlowMark (c : Char) : Bool :=
  c == ',' || c == '[' || c == ']' || c == '\x7b' || c == '\x7d'

/-- Whether a plain scalar ends before these characters; none if it may not stand there. -/
def plainEnds? (flow : Bool) : List Char → Option Bool
  | [] => some true
  | c :: rest =>
    if flow && c == ':' && rest.head?.any (fun d => isFlowMark d || d == '?') then none
    else some ((c == ':' && atGap rest) || (flow && isFlowMark c))

/-- The visible characters of one line of a plain scalar, after the blank space before them; `seen` is
what came before, last character first. -/
def plainRun? (flow : Bool) : Nat → List Char → Fold → Cursor →
    Option (List Char × Fold × Cursor)
  | 0, seen, f, c => some (seen, f, c)
  | fuel + 1, seen, f, c =>
    match c.rest with
    | [] => some (seen, f, c)
    | d :: _ =>
      if isGap d || isBreak d then some (seen, f, c)
      else
        match plainEnds? flow c.rest with
        | none => none
        | some true => some (seen, f, c)
        | some false => plainRun? flow fuel (d :: (f.text.reverse ++ seen)) Fold.none c.skip

/-- The lines of a plain scalar; the result says whether it ran to a new line. -/
def plainLines? (flow : Bool) (margin : Nat) : Nat → List Char → Fold → Cursor →
    Option (List Char × Bool × Cursor)
  | 0, _, _, _ => none
  | fuel + 1, seen, f, c =>
    if (c.column == 0 && atDocumentMark c.rest) || c.nextIs (· == '#') then
      some (seen, f.newLine, c)
    else
      match plainRun? flow (c.rest.length + 1) seen f c with
      | none => none
      | some (seen, f, c) =>
        if !c.nextIs (fun d => isGap d || isBreak d) then some (seen, f.newLine, c)
        else
          match f.read? margin (c.rest.length + 1) c with
          | none => none
          | some (f, c) =>
            if !flow && c.column < margin then some (seen, f.newLine, c)
            else plainLines? flow margin fuel seen f c

/-- A plain scalar, whether it ran to a new line, and what follows.  Outside flow collections every line
of it begins at `margin` or further right. -/
def plain? (flow : Bool) (margin : Nat) (c : Cursor) : Option (String × Bool × Cursor) :=
  (plainLines? flow margin (c.rest.length + 1) [] Fold.none c).map fun (seen, newLine, c) =>
    (String.ofList seen.reverse, newLine, c)

/-! ## Quoted scalars -/

/-- What a single-character escape stands for. -/
def escaped? : Char → Option Char
  | '0' => some '\x00'
  | 'a' => some '\x07'
  | 'b' => some '\x08'
  | 't' => some '\t'
  | '\t' => some '\t'
  | 'n' => some '\n'
  | 'v' => some '\x0b'
  | 'f' => some '\x0c'
  | 'r' => some '\r'
  | 'e' => some '\x1b'
  | ' ' => some ' '
  | '"' => some '"'
  | '/' => some '/'
  | '\\' => some '\\'
  | 'N' => some '\u0085'
  | '_' => some '\u00a0'
  | 'L' => some '\u2028'
  | 'P' => some '\u2029'
  | _ => none

/-- How many hexadecimal digits follow an escape. -/
def escapeDigits? : Char → Option Nat
  | 'x' => some 2
  | 'u' => some 4
  | 'U' => some 8
  | _ => none

/-- The character of an escape (without its backslash), and how many characters it takes. -/
def escape? : List Char → Option (Char × Nat)
  | [] => none
  | c :: rest =>
    match escapeDigits? c with
    | some n =>
      if (rest.take n).length < n then none
      else
        match Text.numeral? 16 (rest.take n) with
        | some code => (Text.charOf? code).map fun d => (d, n + 1)
        | none => none
    | none => (escaped? c).map fun d => (d, 1)

/-- The visible characters of one line of a quoted scalar; the result says whether the line end was written
away by a backslash. -/
def quotedRun? (double : Bool) : Nat → List Char → Cursor → Option (List Char × Bool × Cursor)
  | 0, seen, c => some (seen, false, c)
  | fuel + 1, seen, c =>
    match c.rest with
    | [] => some (seen, false, c)
    | d :: rest =>
      if isGap d || isBreak d then some (seen, false, c)
      else if double then
        if d == '"' then some (seen, false, c)
        else if d == '\\' then
          if rest.head?.any isBreak then some (seen, true, c.skip.takeBreak.2)
          else
            match escape? rest with
            | none => none
            | some (e, n) => quotedRun? double fuel (e :: seen) (c.skipMany (n + 1))
        else quotedRun? double fuel (d :: seen) c.skip
      else if d == '\x27' then
        if rest.head? == some '\x27' then quotedRun? double fuel (d :: seen) (c.skipMany 2)
        else some (seen, false, c)
      else quotedRun? double fuel (d :: seen) c.skip

/-- The lines of a quoted scalar, up to its closing quote. -/
def quotedLines? (double : Bool) : Nat → List Char → Cursor → Option (List Char × Cursor)
  | 0, _, _ => none
  | fuel + 1, seen, c =>
    if (c.column == 0 && atDocumentMark c.rest) || c.rest.isEmpty then none
    else
      match quotedRun? double (c.rest.length + 1) seen c with
      | none => none
      | some (seen, joined, c) =>
        if c.nextIs (· == if double then '"' else '\x27') then some (seen, c.skip)
        else
          match (if joined then Fold.joined else Fold.none).read? 0 (c.rest.length + 1) c with
          | none => none
          | some (f, c) => quotedLines? double fuel (f.text.reverse ++ seen) c

/-- A quoted scalar, from its opening quote, and what follows. -/
def quoted? (double : Bool) (c : Cursor) : Option (String × Cursor) :=
  (quotedLines? double (c.rest.length + 1) [] c.skip).map fun (seen, c) =>
    (String.ofList seen.reverse, c)

/-! ## Block scalars -/

/-- What becomes of the line ends after a block scalar. -/
inductive Chomp where
  | strip
  | clip
  | keep
deriving DecidableEq, Repr

/-- The chomping that an indicator asks for. -/
def Chomp.ofChar? : Char → Option Chomp
  | '+' => some .keep
  | '-' => some .strip
  | _ => none

/-- The chomping and the indentation that the head of a block scalar asks for, in either order. -/
def blockHead? (c : Cursor) : Option (Chomp × Option Nat × Cursor) :=
  let digit? (c : Cursor) : Option (Option Nat × Cursor) :=
    match c.next? with
    | some d =>
      if Text.isDigit d then
        if d == '0' then none else some (some (d.toNat - 48), c.skip)
      else some (none, c)
    | none => some (none, c)
  let chomp (c : Cursor) : Option (Chomp × Cursor) := (c.next?.bind Chomp.ofChar?).map (·, c.skip)
  match chomp c with
  | some (k, c) => (digit? c).map fun (n, c) => (k, n, c)
  | none =>
    (digit? c).map fun (n, c) =>
      if n.isSome then
        match chomp c with
        | some (k, c) => (k, n, c)
        | none => (.clip, n, c)
      else (.clip, n, c)

/-- On over the spaces before the given column (over all spaces if no column is known). -/
def skipIndent (column : Option Nat) (c : Cursor) : Cursor :=
  let spaces := (c.rest.takeWhile (· == ' ')).length
  c.skipMany (match column with
    | some n => min spaces (n - c.column)
    | none => spaces)

/-- Empty lines and the indentation after them: the line ends, the rightmost column reached, and the place
reached.  A tab in place of indentation is refused. -/
def blockBreaks? (column : Option Nat) : Nat → List Char → Nat → Cursor →
    Option (List Char × Nat × Cursor)
  | 0, seen, widest, c => some (seen, widest, c)
  | fuel + 1, seen, widest, c =>
    let c := skipIndent column c
    let widest := max widest c.column
    if column.all (c.column < ·) && c.nextIs (· == '\t') then none
    else if c.nextIs isBreak then
      let (b, c) := c.takeBreak
      blockBreaks? column fuel (seen ++ b) widest c
    else some (seen, widest, c)

/-- The lines of a block scalar at the given column: `last` is the line end after the previous line,
`empty` those of the empty lines after it, and `gapBefore` says whether that line began with a gap. -/
def blockLines? (literal : Bool) (column : Nat) : Nat → List Char → List Char → List Char → Bool →
    Cursor → Option (List Char × List Char × List Char × Cursor)
  | 0, _, _, _, _, _ => none
  | fuel + 1, seen, last, empty, gapBefore, c =>
    if c.column != column || c.rest.isEmpty then some (seen, last, empty, c)
    else
      let gapHere := c.nextIs isGap
      let lead :=
        if !literal && last.head? == some '\n' && !gapBefore && !gapHere then
          (if empty.isEmpty then [' '] else [])
        else last
      let line := c.rest.takeWhile (fun d => !isBreak d)
      let c := c.skipMany line.length
      let (b, c) := c.takeBreak
      match blockBreaks? (some column) (c.rest.length + 1) [] 0 c with
      | none => none
      | some (breaks, _, c) =>
        blockLines? literal column fuel
          (line.reverse ++ (empty.reverse ++ (lead.reverse ++ seen))) b breaks gapHere c

/-- A block scalar, from its indicator, and what follows.  Its lines lie at `margin` or further right. -/
def block? (literal : Bool) (margin : Nat) (c : Cursor) : Option (String × Cursor) := do
  let (chomp, indent, c) ← blockHead? c.skip
  let c ← c.finishLine?
  let fuel := c.rest.length + 1
  let fixed := indent.map fun n => margin - 1 + n
  let (breaks, widest, c) ← blockBreaks? fixed fuel [] 0 c
  let column := fixed.getD (max (max widest margin) 1)
  let (seen, last, empty, c) ← blockLines? literal column fuel [] [] breaks false c
  let tail :=
    match chomp with
    | .strip => []
    | .clip => last
    | .keep => last ++ empty
  some (String.ofList (seen.reverse ++ tail), c)

end Scalar

end TestScribe.Yaml
