/-
# Shell scripts

The scripts that formatters are given on a command line: simple commands with redirections, joined by
separators and logical operators, and the choices `case` and `if`.

* `Shell.Word` : a word with its quoted parts and its parameters;
* `Shell.Script` : the scripts;
* `Shell.parse?` : the script of a text.
-/
import TestScribe.Text.Cut

namespace TestScribe.Shell

/-- A part of a word: text as it stands, or the value of a parameter. -/
inductive Part where
  | text (chars : List Char) (quoted : Bool)
  | parameter (name : String) (quoted : Bool)
deriving DecidableEq, Repr

/-- A word, as the list of its parts. -/
abbrev Word := List Part

/-- A token: a word, an operator, or the sign of a redirection with the number before it. -/
inductive Token where
  | word (w : Word)
  | operator (sign : String)
  | redirect (stream : Option Nat) (sign : String)
deriving DecidableEq, Repr

/-- Where output goes: over a file, to the end of a file, or to where another stream goes. -/
inductive Goal where
  | replace (file : Word)
  | append (file : Word)
  | stream (number : Word)
deriving DecidableEq, Repr

/-- A stream is sent elsewhere. -/
structure Redirect where
  stream : Nat
  goal : Goal
deriving DecidableEq, Repr

/-- A script. -/
inductive Script where
  | nothing
  | command (words : List Word) (redirects : List Redirect)
  | andThen (first second : Script)
  | orElse (first second : Script)
  | after (first second : Script)
  | negated (inner : Script)
  | choose (subject : Word) (branches : List (List Word × Script))
  | branch (condition positive negative : Script)
deriving Repr, Inhabited

/-! ## Tokens -/

/-- A parameter after the dollar sign, and what follows it. -/
def parameter? : List Char → Option (String × List Char)
  | '\x7b' :: rest =>
    let name := rest.takeWhile (· ≠ '\x7d')
    match rest.drop name.length with
    | _ :: rest => if name.all Char.isAlphanum then some (String.ofList name, rest) else none
    | [] => none
  | c :: rest =>
    if Text.isDigit c || c == '?' || c == '#' || c == '@' || c == '*' then
      some (String.ofList [c], rest)
    else
      let name := (c :: rest).takeWhile fun d => d.isAlphanum || d == '_'
      if name.isEmpty then none else some (String.ofList name, (c :: rest).drop name.length)
  | [] => none

/-- The parts within double quotes, and what follows the closing quote; `seen` are characters of the part
that is open (the last first). -/
def doubleQuoted? : Nat → List Char → List Char → Option (Word × List Char)
  | 0, _, _ => none
  | fuel + 1, seen, text =>
    let part := Part.text seen.reverse true
    match text with
    | [] => none
    | '"' :: rest => some ([part], rest)
    | '\\' :: c :: rest =>
      if c == '\n' then doubleQuoted? fuel seen rest
      else if c == '$' || c == '\x60' || c == '"' || c == '\\' then
        doubleQuoted? fuel (c :: seen) rest
      else doubleQuoted? fuel (c :: '\\' :: seen) rest
    | '$' :: rest =>
      match parameter? rest with
      | some (name, rest) =>
        (doubleQuoted? fuel [] rest).map fun (parts, rest) =>
          (part :: .parameter name true :: parts, rest)
      | none => doubleQuoted? fuel ('$' :: seen) rest
    | c :: rest => if c == '\x60' then none else doubleQuoted? fuel (c :: seen) rest

/-- The operators, longer ones first. -/
def operators : List String := [";;", "&&", "||", ";", "&", "|", "(", ")", "\n"]

/-- The signs of redirections, longer ones first. -/
def redirectSigns : List String := [">>", ">&", ">", "<"]

/-- The first of some signs with which a text begins, and what follows. -/
def sign? (signs : List String) (text : List Char) : Option (String × List Char) :=
  signs.findSome? fun sign => (sign.toList.isPrefixOf? text).map (sign, ·)

/-- A word with one more unquoted character. -/
def addChar (c : Char) : Word → Word
  | .text chars false :: rest => .text (chars ++ [c]) false :: rest
  | parts => .text [c] false :: parts

/-- The number that a word consists of. -/
def streamNumber? : Word → Option Nat
  | [.text chars false] => Text.numeral? 10 chars
  | _ => none

/-- The tokens of a text; `word` is the word that is open (the last part first), if any. -/
def tokens? : Nat → Option Word → List Char → Option (List Token)
  | 0, _, _ => none
  | fuel + 1, word, text =>
    let closed : List Token := (word.map fun w => Token.word w.reverse).toList
    let parts := word.getD []
    match text with
    | [] => some closed
    | ' ' :: rest | '\t' :: rest => (tokens? fuel none rest).map (closed ++ ·)
    | '\x27' :: rest =>
      let quoted := rest.takeWhile (· ≠ '\x27')
      match rest.drop quoted.length with
      | _ :: rest => tokens? fuel (some (.text quoted true :: parts)) rest
      | [] => none
    | '"' :: rest =>
      match doubleQuoted? (rest.length + 1) [] rest with
      | some (more, rest) => tokens? fuel (some (more.reverse ++ parts)) rest
      | none => none
    | '\\' :: c :: rest =>
      if c == '\n' then tokens? fuel word rest
      else tokens? fuel (some (.text [c] true :: parts)) rest
    | '$' :: rest =>
      match parameter? rest with
      | some (name, rest) => tokens? fuel (some (.parameter name false :: parts)) rest
      | none => tokens? fuel (some (addChar '$' parts)) rest
    | c :: rest =>
      if c == '#' && word.isNone then
        tokens? fuel none (rest.dropWhile (· ≠ '\n'))
      else if c == '\x60' then none
      else
        match sign? redirectSigns text with
        | some (sign, rest) =>
          match streamNumber? parts with
          | some n => (tokens? fuel none rest).map (.redirect (some n) sign :: ·)
          | none => (tokens? fuel none rest).map (closed ++ .redirect none sign :: ·)
        | none =>
          match sign? operators text with
          | some (sign, rest) => (tokens? fuel none rest).map (closed ++ .operator sign :: ·)
          | none => tokens? fuel (some (addChar c parts)) rest

/-! ## Scripts -/

/-- The text of a word without quotes or parameters. -/
def plainText? : Token → Option String
  | .word [.text chars false] => some (String.ofList chars)
  | _ => none

/-- Whether a token is the given reserved word. -/
def isReserved (name : String) (t : Token) : Bool := plainText? t = some name

/-- The reserved words that end a list of commands. -/
def endsList (t : Token) : Bool :=
  t = .operator ";;" || t = .operator ")"
    || ["esac", "then", "else", "elif", "fi", "\x7d"].any (isReserved · t)

/-- A redirection after its sign. -/
def redirect? (stream : Option Nat) (sign : String) (w : Word) : Option Redirect :=
  if sign = ">" then some ⟨stream.getD 1, .replace w⟩
  else if sign = ">>" then some ⟨stream.getD 1, .append w⟩
  else if sign = ">&" then some ⟨stream.getD 1, .stream w⟩
  else none

/-- The words and redirections of a simple command. -/
def simple? : List Token → Option (List Word × List Redirect × List Token)
  | .word w :: rest =>
    (simple? rest).map fun (words, redirects, rest) => (w :: words, redirects, rest)
  | .redirect stream sign :: .word w :: rest =>
    match redirect? stream sign w with
    | some r => (simple? rest).map fun (words, redirects, rest) => (words, r :: redirects, rest)
    | none => none
  | .redirect _ _ :: _ => none
  | rest => some ([], [], rest)

/-- Tokens after line ends. -/
def afterBreaks (ts : List Token) : List Token := ts.dropWhile (· = .operator "\n")

/-- The patterns of a branch, up to its parenthesis. -/
def patterns? : List Token → Option (List Word × List Token)
  | .word w :: .operator "|" :: rest => (patterns? rest).map fun (ws, rest) => (w :: ws, rest)
  | .word w :: .operator ")" :: rest => some ([w], rest)
  | _ => none

/-- A reserved word is there. -/
def expect? (name : String) : List Token → Option (List Token)
  | t :: rest => if isReserved name t then some rest else none
  | [] => none

mutual

/-- A list of commands with separators, up to what ends it. -/
def list? : Nat → List Token → Option (Script × List Token)
  | 0, _ => none
  | fuel + 1, ts =>
    let ts := afterBreaks ts
    if ts.isEmpty || ts.head?.any endsList then some (.nothing, ts)
    else do
      let (first, ts) ← logical? fuel ts
      match ts with
      | .operator ";" :: rest | .operator "\n" :: rest =>
        let (more, ts) ← list? fuel rest
        some (.after first more, ts)
      | _ => if ts.isEmpty || ts.head?.any endsList then some (first, ts) else none

/-- Commands with logical operators between them. -/
def logical? : Nat → List Token → Option (Script × List Token)
  | 0, _ => none
  | fuel + 1, ts => do
    let (first, ts) ← command? fuel ts
    operators? fuel first ts

/-- The logical operators after a command; they are taken from the left. -/
def operators? : Nat → Script → List Token → Option (Script × List Token)
  | 0, _, _ => none
  | fuel + 1, first, ts =>
    match ts with
    | .operator "&&" :: rest => do
      let (second, ts) ← command? fuel (afterBreaks rest)
      operators? fuel (.andThen first second) ts
    | .operator "||" :: rest => do
      let (second, ts) ← command? fuel (afterBreaks rest)
      operators? fuel (.orElse first second) ts
    | _ => some (first, ts)

/-- One command. -/
def command? : Nat → List Token → Option (Script × List Token)
  | 0, _ => none
  | fuel + 1, ts =>
    match ts with
    | [] => none
    | t :: rest =>
      if isReserved "!" t then do
        let (inner, ts) ← command? fuel rest
        some (.negated inner, ts)
      else if isReserved "case" t then
        match rest with
        | .word subject :: rest => do
          let rest ← expect? "in" (afterBreaks rest)
          let (branches, ts) ← branches? fuel rest
          some (.choose subject branches, ts)
        | _ => none
      else if isReserved "if" t then conditional? fuel rest
      else if isReserved "\x7b" t then do
        let (inner, ts) ← list? fuel rest
        let ts ← expect? "\x7d" ts
        some (inner, ts)
      else do
        let (words, redirects, ts) ← simple? (t :: rest)
        if words.isEmpty && redirects.isEmpty then none else some (.command words redirects, ts)

/-- The branches of a choice by patterns, up to its end. -/
def branches? : Nat → List Token → Option (List (List Word × Script) × List Token)
  | 0, _ => none
  | fuel + 1, ts =>
    match afterBreaks ts with
    | [] => none
    | t :: rest =>
      if isReserved "esac" t then some ([], rest)
      else do
        let (patterns, ts) ← patterns? (if t = .operator "(" then rest else t :: rest)
        let (body, ts) ← list? fuel ts
        match afterBreaks ts with
        | .operator ";;" :: ts =>
          let (more, ts) ← branches? fuel ts
          some ((patterns, body) :: more, ts)
        | ts => do
          let ts ← expect? "esac" ts
          some ([(patterns, body)], ts)

/-- A choice by a condition, after its first word. -/
def conditional? : Nat → List Token → Option (Script × List Token)
  | 0, _ => none
  | fuel + 1, ts => do
    let (condition, ts) ← list? fuel ts
    let ts ← expect? "then" ts
    let (positive, ts) ← list? fuel ts
    match ts with
    | t :: rest =>
      if isReserved "fi" t then some (.branch condition positive .nothing, rest)
      else if isReserved "elif" t then do
        let (negative, ts) ← conditional? fuel rest
        some (.branch condition positive negative, ts)
      else if isReserved "else" t then do
        let (negative, ts) ← list? fuel rest
        let ts ← expect? "fi" ts
        some (.branch condition positive negative, ts)
      else none
    | [] => none

end

/-- The script of a text, if it is one of the forms covered here. -/
def parse? (text : String) : Option Script := do
  let chars := text.toList
  let ts ← tokens? (chars.length + 1) none chars
  let (script, rest) ← list? (8 * ts.length + 8) ts
  if rest.isEmpty then some script else none

end TestScribe.Shell
