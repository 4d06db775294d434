/-
# Splitting a line into words

A line is split at blanks the way a shell does it: quotes keep blanks together, a backslash takes the
meaning off the next character, and a hash at the beginning of a word opens a comment.

* `Words.split?` : the words of a line; none if a quote is left open.
-/

namespace TestScribe.Words

/-- Where a line can be while it is split. -/
inductive Mode where
  /-- between words -/
  | outside
  /-- within a word, outside quotes -/
  | bare
  /-- after a backslash outside quotes -/
  | escape
  | single
  | double
  /-- after a backslash within double quotes -/
  | doubleEscape
  | comment
deriving DecidableEq, Repr

/-- What separates words. -/
def isSeparator (c : Char) : Bool := c == ' ' || c == '\t' || c == '\n'

/-- What a backslash takes the meaning off within double quotes. -/
def isDoubleEscape (c : Char) : Bool := c == '$' || c == '\x60' || c == '"' || c == '\\'

/-- The state of splitting: the mode, the characters of the word that is open (the last first), and the
words that are complete (the last first). -/
structure State where
  mode : Mode
  word : List Char
  words : List String
deriving Repr

namespace State

/-- The open word is complete. -/
def close (s : State) : State := ⟨.outside, [], String.ofList s.word.reverse :: s.words⟩

/-- One more character, in the given mode. -/
def add (s : State) (mode : Mode) (c : Char) : State := { s with mode, word := c :: s.word }

/-- The mode alone changes. -/
def enter (s : State) (mode : Mode) : State := { s with mode }

/-- One character of a word outside quotes. -/
def bareStep (s : State) (c : Char) : State :=
  if c == '"' then s.enter .double
  else if c == '\x27' then s.enter .single
  else if c == '\\' then s.enter .escape
  else s.add .bare c

/-- One character of the line. -/
def step (s : State) (c : Char) : State :=
  match s.mode with
  | .outside =>
    if isSeparator c then s else if c == '#' then s.enter .comment else s.bareStep c
  | .bare => if isSeparator c then s.close else s.bareStep c
  | .escape => if c == '\n' then s.enter .bare else s.add .bare c
  | .single => if c == '\x27' then s.enter .bare else s.add .single c
  | .double =>
    if c == '"' then s.enter .bare
    else if c == '\\' then s.enter .doubleEscape
    else s.add .double c
  | .doubleEscape =>
    if isDoubleEscape c then s.add .double c
    else if c == '\n' then s.enter .double
    else (s.add .double '\\').add .double c
  | .comment => if c == '\n' then s.enter .outside else s

/-- The words at the end of the line; none within quotes or after a backslash. -/
def finish? (s : State) : Option (List String) :=
  match s.mode with
  | .outside | .comment => some s.words.reverse
  | .bare => some s.close.words.reverse
  | _ => none

end State

/-- The words of a line; none if a quote is left open. -/
def split? (line : String) : Option (List String) :=
  (line.toList.foldl State.step ⟨.outside, [], []⟩).finish?

end TestScribe.Words
