/-
# A place in a YAML text

What is left to read, with the line and the column of its first character.

* `Cursor` : a place in the text;
* `Cursor.skip`, `Cursor.takeBreak` : moving on by a character and by a line end.
-/
import TestScribe.Text.Cut

namespace TestScribe.Yaml

/-! ## Characters -/

/-- Whether a text may hold the character at all. -/
def isReadable (c : Char) : Bool :=
  let n := c.toNat
  n == 0x9 || n == 0xA || n == 0xD || (0x20 ≤ n && n ≤ 0x7E) || n == 0x85
    || (0xA0 ≤ n && n ≤ 0xD7FF) || (0xE000 ≤ n && n ≤ 0xFFFD) || 0x10000 ≤ n

/-- A space or a tab. -/
def isGap (c : Char) : Bool := c == ' ' || c == '\t'

/-- The line and paragraph separators, which stay in a text as they are. -/
def isKeptBreak (c : Char) : Bool := c == '\u2028' || c == '\u2029'

/-- A character that ends a line. -/
def isBreak (c : Char) : Bool := c == '\r' || c == '\n' || c == '\u0085' || isKeptBreak c

/-- Characters of names: letters, digits, underscore and hyphen. -/
def isNameChar (c : Char) : Bool := c.isAlphanum || c == '_' || c == '-'

/-- Whether the text ends or a line ends here. -/
def atBreak : List Char → Bool
  | [] => true
  | c :: _ => isBreak c

/-- Whether the text ends, or a gap or a line end follows. -/
def atGap : List Char → Bool
  | [] => true
  | c :: _ => isGap c || isBreak c

/-- Whether a line of three dashes or three points begins here. -/
def atDocumentMark : List Char → Bool
  | '-' :: '-' :: '-' :: rest => atGap rest
  | '.' :: '.' :: '.' :: rest => atGap rest
  | _ => false

/-! ## Cursors -/

/-- What is left of the text, how much was read, and the line and column reached. -/
structure Cursor where
  rest : List Char
  index : Nat
  line : Nat
  column : Nat
deriving Repr

namespace Cursor

/-- The beginning of a text. -/
def ofText (text : List Char) : Cursor := ⟨text, 0, 0, 0⟩

/-- The next character. -/
def next? (c : Cursor) : Option Char := c.rest.head?

/-- Whether the next character satisfies a test. -/
def nextIs (c : Cursor) (test : Char → Bool) : Bool := c.next?.any test

/-- On by one character of the same line. -/
def skip (c : Cursor) : Cursor :=
  ⟨c.rest.tail, c.index + 1, c.line, c.column + 1⟩

/-- On by several characters of the same line. -/
def skipMany (n : Nat) (c : Cursor) : Cursor :=
  ⟨c.rest.drop n, c.index + n, c.line, c.column + n⟩

/-- On over the characters of the same line that satisfy a test. -/
def skipWhile (test : Char → Bool) (c : Cursor) : Cursor :=
  c.skipMany (c.rest.takeWhile test).length

/-- The line end here as it stands in a text, and the start of the next line.  All line ends but the
separators of lines and paragraphs count as one line feed. -/
def takeBreak (c : Cursor) : List Char × Cursor :=
  match c.rest with
  | '\r' :: '\n' :: rest => (['\n'], ⟨rest, c.index + 2, c.line + 1, 0⟩)
  | b :: rest =>
    if isBreak b then
      (if isKeptBreak b then [b] else ['\n'], ⟨rest, c.index + 1, c.line + 1, 0⟩)
    else ([], c)
  | [] => ([], c)

/-- On over a comment, if one begins here, up to the end of the line. -/
def skipComment (c : Cursor) : Cursor :=
  if c.nextIs (· == '#') then c.skipWhile (fun d => !isBreak d) else c

/-- The rest of a line that may hold only gaps and a comment, with its end. -/
def finishLine? (c : Cursor) : Option Cursor :=
  let c := (c.skipWhile isGap).skipComment
  if atBreak c.rest then some c.takeBreak.2 else none

end Cursor

end TestScribe.Yaml
