/-
# Extraction expressions

Expressions that pick a part of a response, written as segments between dots.  The older syntax names
the body `content` or `json`, leaves names with a hyphen bare and writes a list index as a segment of
its own; the current syntax names it `body`, quotes such names and puts an index into brackets.

* `Expression.modernize` : an expression in the current syntax.
-/
import TestScribe.Fault

namespace TestScribe.Expression

open Text

/-- The leading name of the body in the current syntax.  Only the beginning of the text counts, so a
longer name that begins with an older one is changed as well. -/
def renameBody (raw : String) : String :=
  match afterPrefix? "content" raw with
  | some rest => "body" ++ rest
  | none =>
    match afterPrefix? "json" raw with
    | some rest => "body" ++ rest
    | none => raw

/-- Whether a segment is a list index. -/
def isIndex (segment : String) : Bool :=
  !segment.toList.isEmpty && segment.toList.all isDigit

/-- A segment between double quotes, those that it may already have taken off first. -/
def quoteSegment (segment : String) : String := "\"" ++ trimChar '"' segment ++ "\""

/-- One more segment onto the converted ones, which are held backwards: an index is joined to the
segment before it, and there must be one. -/
def addSegment (done : List String) (segment : String) : Option (List String) :=
  if segment.toList.contains '-' then some (quoteSegment segment :: done)
  else if isIndex segment then
    match done with
    | [] => none
    | last :: rest => some ((last ++ "[" ++ segment ++ "]") :: rest)
  else some (segment :: done)

/-- The converted segments of an expression. -/
def segments? (raw : String) : Option (List String) :=
  ((pieces '.' raw).foldlM addSegment []).map List.reverse

/-- An expression in the current syntax; one that begins with an index is refused. -/
def modernize (raw : String) : Except SchemaFault String :=
  match segments? (renameBody raw) with
  | some done => .ok (joinWith "." done)
  | none => .error (.badExpression (renameBody raw))

end TestScribe.Expression
