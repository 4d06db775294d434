/-
# TOML

The tables of a TOML text.  A table is open to more entries by the way in which it came about: by its
own header, by the header of a table inside it, by dotted keys, or between braces.

* `Toml.Item`, `Toml.Table` : what a text holds;
* `Toml.read?` : the table of a text.
-/
import TestScribe.Number.Shortest
import TestScribe.Text.Cut

namespace TestScribe.Toml

/-! ## Items -/

/-- How a table came about. -/
inductive Opening where
  | header
  | implied
  | dotted
  | inline
deriving DecidableEq, Repr

/-- A number with a fraction or an exponent. -/
inductive Real where
  | finite (x : Binary64)
  | infinite (negative : Bool)
  | undefined
deriving DecidableEq, Repr

/-- What a key stands for. -/
inductive Item where
  | text (s : String)
  | integer (i : Int)
  | real (r : Real)
  | bool (b : Bool)
  | time (s : String)
  | array (items : List Item)
  | table (opening : Opening) (entries : List (String × Item))
  | rows (tables : List (List (String × Item)))
deriving Repr, Inhabited

/-- The entries of a table, in the order in which they were written. -/
abbrev Table := List (String × Item)

/-- The digits of a decimal without a fraction of zero. -/
def plainDigits (d : Decimal) : List Char :=
  match d.positional.reverse with
  | '0' :: '.' :: rest => rest.reverse
  | _ => d.positional

/-- The text of a number with a fraction or an exponent: never an exponent, and no fraction of zero. -/
def Real.text : Real → String
  | .finite x =>
    let digits := plainDigits (x.shortest .up)
    String.ofList (if x.negative then '-' :: digits else digits)
  | .infinite negative => if negative then "-inf" else "inf"
  | .undefined => "NaN"

/-! ## Building tables -/

/-- The item of a key. -/
def find? (key : String) (t : Table) : Option Item := List.lookup key t

/-- The item of a key is replaced where it stands, or added at the end. -/
def put (key : String) (item : Item) : Table → Table
  | [] => [(key, item)]
  | (k, i) :: rest => if k = key then (k, item) :: rest else (k, i) :: put key item rest

/-- The last row is changed. -/
def onLast? (f : Table → Option Table) : List Table → Option (List Table)
  | [] => none
  | [t] => (f t).map ([·])
  | t :: rest => (onLast? f rest).map (t :: ·)

/-- The table that some keys of a header lead to is changed; missing ones are implied. -/
def within? (f : Table → Option Table) : List String → Table → Option Table
  | [], t => f t
  | key :: rest, t =>
    match find? key t with
    | none => (within? f rest []).map fun inner => put key (.table .implied inner) t
    | some (.table opening inner) =>
      if opening = .inline then none
      else (within? f rest inner).map fun inner => put key (.table opening inner) t
    | some (.rows tables) =>
      (onLast? (within? f rest) tables).map fun tables => put key (.rows tables) t
    | some _ => none

/-- An entry under dotted keys is added.  The tables on the way must not have headers of their own, and the
innermost one must have come about by dotted keys; `byDots` tells this of the table at hand, and
`dots` whether there are keys on the way at all. -/
def addDotted? (dots : Bool) (key : String) (item : Item) :
    List String → (byDots : Bool) → Table → Option Table
  | [], byDots, t =>
    if byDots != dots || (find? key t).isSome then none else some (put key item t)
  | k :: rest, _, t =>
    match find? k t with
    | none =>
      (addDotted? dots key item rest true []).map fun inner => put k (.table .dotted inner) t
    | some (.table opening inner) =>
      if opening = .header || opening = .inline then none
      else
        (addDotted? dots key item rest (opening = .dotted) inner).map fun inner =>
          put k (.table opening inner) t
    | some (.rows tables) =>
      (onLast? (addDotted? dots key item rest false) tables).map fun tables =>
        put k (.rows tables) t
    | some _ => none

/-- An entry is added to a table; all but the last of its keys are on the way. -/
def add? (keys : List String) (item : Item) (t : Table) : Option Table :=
  match keys.reverse with
  | [] => none
  | key :: way => addDotted? (!way.isEmpty) key item way.reverse false t

/-- A table gets its header; it may have been implied before. -/
def openTable? (keys : List String) (t : Table) : Option Table :=
  match keys.reverse with
  | [] => none
  | key :: way =>
    within? (fun t =>
      match find? key t with
      | none => some (put key (.table .header []) t)
      | some (.table .implied inner) => some (put key (.table .header inner) t)
      | some _ => none) way.reverse t

/-- A list of tables gets one more row. -/
def openRow? (keys : List String) (t : Table) : Option Table :=
  match keys.reverse with
  | [] => none
  | key :: way =>
    within? (fun t =>
      match find? key t with
      | none => some (put key (.rows [[]]) t)
      | some (.rows tables) => some (put key (.rows (tables ++ [[]])) t)
      | some _ => none) way.reverse t

/-! ## Blank space and comments -/

/-- A space or a tab. -/
def isGap (c : Char) : Bool := c == ' ' || c == '\t'

/-- The text after gaps. -/
def skipGap (cs : List Char) : List Char := cs.dropWhile isGap

/-- Characters that may stand in a comment or in a text. -/
def isPrintable (c : Char) : Bool := c == '\t' || (' ' ≤ c && c ≠ '\x7f')

/-- The text after a line end. -/
def lineEnd? : List Char → Option (List Char)
  | '\n' :: rest => some rest
  | '\r' :: '\n' :: rest => some rest
  | _ => none

/-- The text after a comment, if there is one. -/
def skipComment : List Char → List Char
  | '#' :: rest => rest.dropWhile isPrintable
  | cs => cs

/-- The rest of a line holds only gaps and a comment. -/
def finishLine? (cs : List Char) : Option (List Char) :=
  match skipComment (skipGap cs) with
  | [] => some []
  | rest => lineEnd? rest

/-- The text after gaps, comments and line ends. -/
def skipLines : Nat → List Char → List Char
  | 0, cs => cs
  | fuel + 1, cs =>
    let rest := skipComment (skipGap cs)
    match lineEnd? rest with
    | some rest => skipLines fuel rest
    | none => rest

/-! ## Texts -/

/-- The character of an escape (without its backslash), and what follows. -/
def escape? : List Char → Option (Char × List Char)
  | 'b' :: rest => some ('\x08', rest)
  | 't' :: rest => some ('\t', rest)
  | 'n' :: rest => some ('\n', rest)
  | 'f' :: rest => some ('\x0c', rest)
  | 'r' :: rest => some ('\r', rest)
  | '"' :: rest => some ('"', rest)
  | '\\' :: rest => some ('\\', rest)
  | 'u' :: rest => code? 4 rest
  | 'U' :: rest => code? 8 rest
  | _ => none
where
  /-- A character by its code in so many hexadecimal digits. -/
  code? (n : Nat) (cs : List Char) : Option (Char × List Char) :=
    if (cs.take n).length < n then none
    else (Text.numeral? 16 (cs.take n)).bind fun code =>
      (Text.charOf? code).map fun c => (c, cs.drop n)

/-- A text in double quotes, after the opening one; `seen` is what came before, the last first. -/
def basic? : Nat → List Char → List Char → Option (String × List Char)
  | 0, _, _ => none
  | fuel + 1, seen, cs =>
    match cs with
    | [] => none
    | '"' :: rest => some (String.ofList seen.reverse, rest)
    | '\\' :: rest =>
      match escape? rest with
      | some (c, rest) => basic? fuel (c :: seen) rest
      | none => none
    | c :: rest => if isPrintable c then basic? fuel (c :: seen) rest else none

/-- A text in single quotes, after the opening one. -/
def literal? (cs : List Char) : Option (String × List Char) :=
  let chars := cs.takeWhile fun c => c != '\x27' && isPrintable c
  match cs.drop chars.length with
  | '\x27' :: rest => some (String.ofList chars, rest)
  | _ => none

/-- A run of quotes in a text of several lines: up to two are part of it; three close it, after up to two
more that are part of it. -/
def quoteRun (q : Char) (cs : List Char) : Nat × Bool × List Char :=
  let n := (cs.takeWhile (· == q)).length
  if n < 3 then (n, false, cs.drop n) else (min n 5 - 3, true, cs.drop (min n 5))

/-- A text of several lines, after its opening quotes; backslashes escape where `escapes`. -/
def multiline? (q : Char) (escapes : Bool) : Nat → List Char → List Char →
    Option (String × List Char)
  | 0, _, _ => none
  | fuel + 1, seen, cs =>
    match lineEnd? cs with
    | some rest => multiline? q escapes fuel ('\n' :: seen) rest
    | none =>
      match cs with
      | [] => none
      | c :: rest =>
        if c == q then
          let (n, closed, rest) := quoteRun q cs
          let seen := List.replicate n q ++ seen
          if closed then some (String.ofList seen.reverse, rest)
          else multiline? q escapes fuel seen rest
        else if c == '\\' && escapes then
          match lineEnd? (skipGap rest) with
          | some rest =>
            multiline? q escapes fuel seen
              (rest.dropWhile fun c => isGap c || c == '\n' || c == '\r')
          | none =>
            match escape? rest with
            | some (d, rest) => multiline? q escapes fuel (d :: seen) rest
            | none => none
        else if isPrintable c then multiline? q escapes fuel (c :: seen) rest
        else none

/-- A text of several lines, after its opening quotes; a line end right after them is dropped. -/
def afterOpening? (q : Char) (escapes : Bool) (cs : List Char) : Option (String × List Char) :=
  multiline? q escapes (cs.length + 1) [] ((lineEnd? cs).getD cs)

/-- A text in quotes of any kind. -/
def text? : List Char → Option (String × List Char)
  | '"' :: '"' :: '"' :: rest => afterOpening? '"' true rest
  | '\x27' :: '\x27' :: '\x27' :: rest => afterOpening? '\x27' false rest
  | '"' :: rest => basic? (rest.length + 1) [] rest
  | '\x27' :: rest => literal? rest
  | _ => none

/-! ## Keys -/

/-- Characters of keys without quotes. -/
def isKeyChar (c : Char) : Bool := c.isAlphanum || c == '_' || c == '-'

/-- One key. -/
def simpleKey? : List Char → Option (String × List Char)
  | '"' :: rest => basic? (rest.length + 1) [] rest
  | '\x27' :: rest => literal? rest
  | cs =>
    let key := cs.takeWhile isKeyChar
    if key.isEmpty then none else some (String.ofList key, cs.drop key.length)

/-- Keys with dots between them, and what follows them and the gaps after them. -/
def keys? : Nat → List Char → Option (List String × List Char)
  | 0, _ => none
  | fuel + 1, cs => do
    let (key, rest) ← simpleKey? (skipGap cs)
    match skipGap rest with
    | '.' :: rest =>
      let (more, rest) ← keys? fuel rest
      some (key :: more, rest)
    | rest => some ([key], rest)

/-! ## Numbers -/

/-- Digits of a base, single underscores between them dropped; there must be one. -/
def digits? (isDigit : Char → Bool) (cs : List Char) : Option (List Char × List Char) :=
  let run := cs.takeWhile fun c => isDigit c || c == '_'
  let groups := Text.splitChars '_' run
  if groups.any List.isEmpty then none else some (groups.flatten, cs.drop run.length)

/-- Whether a number carries a minus sign, and what follows its sign. -/
def sign : List Char → Bool × List Char
  | '-' :: rest => (true, rest)
  | '+' :: rest => (false, rest)
  | cs => (false, cs)

/-- Whether a character is a digit of the base. -/
def isDigitOf (base : Nat) (c : Char) : Bool := (Text.hexDigit? c).any (· < base)

/-- An integer within 64 bits. -/
def boundedInteger? (i : Int) : Option Item :=
  if -(Nat.pow 2 63 : Int) ≤ i && i < (Nat.pow 2 63 : Int) then some (.integer i) else none

/-- An integer with a mark of its base. -/
def based? (base : Nat) (cs : List Char) : Option (Item × List Char) := do
  let (digits, rest) ← digits? (isDigitOf base) cs
  let n ← Text.numeral? base digits
  let item ← boundedInteger? n
  some (item, rest)

/-- The whole part of a decimal number, without leading zeros. -/
def whole? (cs : List Char) : Option (List Char × List Char) :=
  match cs with
  | '0' :: rest => some (['0'], rest)
  | _ => digits? Text.isDigit cs

/-- The digits after the point, if it is there. -/
def fraction? : List Char → Option (List Char × List Char)
  | '.' :: rest => digits? Text.isDigit rest
  | cs => some ([], cs)

/-- The exponent, if it is there. -/
def exponent? : List Char → Option (Option Int × List Char)
  | c :: rest =>
    if c == 'e' || c == 'E' then
      let (negative, rest) := sign rest
      (digits? Text.isDigit rest).map fun (digits, rest) =>
        let n : Int := Text.decimal digits
        (some (if negative then -n else n), rest)
    else some (none, c :: rest)
  | [] => some (none, [])

/-- A decimal number, after its sign.  One that is too great has no value; one that is too small is
infinite. -/
def decimal? (negative : Bool) (cs : List Char) : Option (Item × List Char) := do
  let (whole, rest) ← whole? cs
  let (fraction, rest) ← fraction? rest
  let (exponent, rest) ← exponent? rest
  if fraction.isEmpty && exponent.isNone then
    let n : Int := Text.decimal whole
    let item ← boundedInteger? (if negative then -n else n)
    some (item, rest)
  else
    let digits := Text.decimal (whole ++ fraction)
    match Binary64.ofDecimal? negative digits (exponent.getD 0 - fraction.length) with
    | some x => some (.real (.finite x), rest)
    | none => if negative then some (.real (.infinite true), rest) else none

/-- A number. -/
def number? (cs : List Char) : Option (Item × List Char) :=
  match cs with
  | '0' :: 'x' :: rest => based? 16 rest
  | '0' :: 'o' :: rest => based? 8 rest
  | '0' :: 'b' :: rest => based? 2 rest
  | _ =>
    let (negative, rest) := sign cs
    match rest with
    | 'i' :: 'n' :: 'f' :: rest => some (.real (.infinite negative), rest)
    | 'n' :: 'a' :: 'n' :: rest => some (.real .undefined, rest)
    | _ => decimal? negative rest

/-! ## Dates and times -/

/-- So many digits, their number between two bounds. -/
def field? (n low high : Nat) (cs : List Char) : Option (List Char × List Char) :=
  let digits := cs.take n
  if digits.length = n && digits.all Text.isDigit && low ≤ Text.decimal digits
      && Text.decimal digits ≤ high then
    some (digits, cs.drop n)
  else none

/-- The text after a character. -/
def expect? (c : Char) : List Char → Option (List Char)
  | d :: rest => if d = c then some rest else none
  | [] => none

/-- How many days a month has. -/
def daysIn (year month : Nat) : Nat :=
  if month = 2 then
    (if (year % 4 = 0 && year % 100 ≠ 0) || year % 400 = 0 then 29 else 28)
  else if month = 4 || month = 6 || month = 9 || month = 11 then 30
  else 31

/-- A date. -/
def date? (cs : List Char) : Option (List Char × List Char) := do
  let (year, cs) ← field? 4 0 9999 cs
  let cs ← expect? '-' cs
  let (month, cs) ← field? 2 1 12 cs
  let cs ← expect? '-' cs
  let (day, cs) ← field? 2 1 (daysIn (Text.decimal year) (Text.decimal month)) cs
  some (year ++ '-' :: month ++ '-' :: day, cs)

/-- A fraction of a second: at most nine digits count, and zeros at the end do not. -/
def secondFraction : List Char → List Char × List Char
  | '.' :: rest =>
    let digits := rest.takeWhile Text.isDigit
    if digits.isEmpty then ([], '.' :: rest)
    else
      let kept := ((digits.take 9).reverse.dropWhile (· == '0')).reverse
      (if kept.isEmpty then [] else '.' :: kept, rest.drop digits.length)
  | cs => ([], cs)

/-- A time of day. -/
def clock? (cs : List Char) : Option (List Char × List Char) := do
  let (hour, cs) ← field? 2 0 23 cs
  let cs ← expect? ':' cs
  let (minute, cs) ← field? 2 0 59 cs
  let cs ← expect? ':' cs
  let (second, cs) ← field? 2 0 60 cs
  let (fraction, cs) := secondFraction cs
  some (hour ++ ':' :: minute ++ ':' :: second ++ fraction, cs)

/-- The offset of a time from universal time, if it is there. -/
def offset? (cs : List Char) : Option (List Char × List Char) :=
  match cs with
  | c :: rest =>
    if c == 'Z' || c == 'z' then some (['Z'], rest)
    else if c == '+' || c == '-' then do
      let (hour, rest) ← field? 2 0 23 rest
      let rest ← expect? ':' rest
      let (minute, rest) ← field? 2 0 59 rest
      some (c :: hour ++ ':' :: minute, rest)
    else some ([], cs)
  | [] => some ([], [])

/-- A date with a time, a date, or a time, in its usual form. -/
def time? (cs : List Char) : Option (Item × List Char) :=
  match date? cs with
  | some (date, rest) =>
    match rest with
    | c :: more =>
      if c == 'T' || c == 't' || c == ' ' then
        match clock? more with
        | some (clock, more) =>
          (offset? more).map fun (offset, more) =>
            (.time (String.ofList (date ++ 'T' :: clock ++ offset)), more)
        | none => some (.time (String.ofList date), rest)
      else some (.time (String.ofList date), rest)
    | [] => some (.time (String.ofList date), [])
  | none => (clock? cs).map fun (clock, rest) => (.time (String.ofList clock), rest)

/-! ## Values -/

mutual

/-- A value. -/
def value? : Nat → List Char → Option (Item × List Char)
  | 0, _ => none
  | fuel + 1, cs =>
    match cs with
    | '[' :: rest => (items? fuel rest).map fun (items, rest) => (.array items, rest)
    | '\x7b' :: rest =>
      match skipGap rest with
      | '\x7d' :: rest => some (.table .inline [], rest)
      | rest => (entries? fuel [] rest).map fun (t, rest) => (.table .inline t, rest)
    | 't' :: 'r' :: 'u' :: 'e' :: rest => some (.bool true, rest)
    | 'f' :: 'a' :: 'l' :: 's' :: 'e' :: rest => some (.bool false, rest)
    | _ =>
      match text? cs with
      | some (s, rest) => some (.text s, rest)
      | none =>
        match time? cs with
        | some r => some r
        | none => number? cs

/-- The items of an array, after its bracket or after a comma. -/
def items? : Nat → List Char → Option (List Item × List Char)
  | 0, _ => none
  | fuel + 1, cs =>
    match skipLines (cs.length + 1) cs with
    | ']' :: rest => some ([], rest)
    | cs => do
      let (item, rest) ← value? fuel cs
      match skipLines (rest.length + 1) rest with
      | ',' :: rest =>
        let (more, rest) ← items? fuel rest
        some (item :: more, rest)
      | ']' :: rest => some ([item], rest)
      | _ => none

/-- The entries of a table between braces. -/
def entries? : Nat → Table → List Char → Option (Table × List Char)
  | 0, _, _ => none
  | fuel + 1, t, cs => do
    let (keys, rest) ← keys? (cs.length + 1) cs
    let rest ← expect? '=' rest
    let (item, rest) ← value? fuel (skipGap rest)
    let t ← add? keys item t
    match skipGap rest with
    | ',' :: rest => entries? fuel t rest
    | '\x7d' :: rest => some (t, rest)
    | _ => none

end

/-! ## Documents -/

/-- The table so far, and the keys of the header that entries go under. -/
structure State where
  table : Table
  header : List String

/-- One header, after its first bracket. -/
def header? (s : State) (cs : List Char) : Option (State × List Char) := do
  let row := cs.head? == some '['
  let (keys, rest) ← keys? (cs.length + 1) (if row then cs.tail else cs)
  let rest ← expect? ']' rest
  let rest ← if row then expect? ']' rest else some rest
  let t ← if row then openRow? keys s.table else openTable? keys s.table
  some (⟨t, keys⟩, rest)

/-- One entry. -/
def entry? (s : State) (cs : List Char) : Option (State × List Char) := do
  let (keys, rest) ← keys? (cs.length + 1) cs
  let rest ← expect? '=' rest
  let (item, rest) ← value? (rest.length + 1) (skipGap rest)
  let t ← within? (add? keys item) s.header s.table
  some ({ s with table := t }, rest)

/-- One line after the other. -/
def lines? : Nat → State → List Char → Option Table
  | 0, _, _ => none
  | fuel + 1, s, cs =>
    match skipLines (cs.length + 1) cs with
    | [] => some s.table
    | '[' :: rest => do
      let (s, rest) ← header? s rest
      let rest ← finishLine? rest
      lines? fuel s rest
    | cs => do
      let (s, rest) ← entry? s cs
      let rest ← finishLine? rest
      lines? fuel s rest

/-- The table of a text; a byte order mark before it is dropped. -/
def read? (text : String) : Option Table :=
  let cs :=
    match text.toList with
    | '\ufeff' :: rest => rest
    | cs => cs
  lines? (cs.length + 1) ⟨[], []⟩ cs

end TestScribe.Toml
