/-
# Reading literals back

A reader for Python literals, and the round trip through it: a literal of the writer reads back as the
value it came from, and leaves whatever text follows it untouched.  The reader knows `None`, `True`,
`False`, decimal whole numbers, texts in either kind of quotes, lists and mappings.

* `Literal.readQuoted` : a text up to its closing quote;
* `Literal.read?` : a literal at the start of a text;
* `Literal.readWithin_write` : what is written reads back, with any text after it;
* `Literal.write_cancel` : literals with texts after them are equal only part by part.
-/
import TestScribe.Literal
import TestScribe.Text.Cut
import Mathlib

namespace TestScribe

namespace Literal

/-! ## The reader -/

/-- The character that a letter after a backslash stands for. -/
def escaped? (c : Char) : Option Char :=
  if c = '\\' ∨ c = '"' ∨ c = '\x27' then some c
  else if c = 'n' then some '\n'
  else if c = 'r' then some '\r'
  else if c = 't' then some '\t'
  else none

/-- The character of two hexadecimal digits. -/
def ofHexPair? (a b : Char) : Option Char :=
  match Text.hexDigit? a, Text.hexDigit? b with
  | some m, some n => some (Char.ofNat (16 * m + n))
  | _, _ => none

/-- The text up to the closing quote `q`, and what follows the quote.  A raw line end cannot stand in a
quoted text. -/
def readQuoted (q : Char) : List Char → Option (List Char × List Char)
  | [] => none
  | '\\' :: 'x' :: a :: b :: rest =>
    (ofHexPair? a b).bind fun c => (readQuoted q rest).map fun (s, r) => (c :: s, r)
  | '\\' :: e :: rest =>
    (escaped? e).bind fun c => (readQuoted q rest).map fun (s, r) => (c :: s, r)
  | c :: rest =>
    if c = q then some ([], rest)
    else if c = '\\' ∨ c = '\n' ∨ c = '\r' then none
    else (readQuoted q rest).map fun (s, r) => (c :: s, r)

/-- A text in quotes of either kind. -/
def readText : List Char → Option (String × List Char)
  | c :: rest =>
    if c = '"' ∨ c = '\x27' then (readQuoted c rest).map fun (s, r) => (String.ofList s, r)
    else none
  | [] => none

/-- Decimal digits, of which there must be one. -/
def readDigits (cs : List Char) : Option (Nat × List Char) :=
  let digits := cs.takeWhile Char.isDigit
  if digits.isEmpty then none
  else some (Nat.ofDigitChars 10 digits 0, cs.dropWhile Char.isDigit)

/-- A whole number, which may have a minus sign. -/
def readInt : List Char → Option (Int × List Char)
  | '-' :: rest => (readDigits rest).map fun (n, r) => (-(n : Int), r)
  | cs => (readDigits cs).map fun (n, r) => ((n : Int), r)

/-- The text after blanks. -/
def skipBlanks (cs : List Char) : List Char := cs.dropWhile (· = ' ')

mutual

/-- A literal at the start of a text, and what follows it; `fuel` bounds the number of literals in it. -/
def readWithin : (fuel : Nat) → List Char → Option (Value × List Char)
  | 0, _ => none
  | fuel + 1, cs =>
    match cs with
    | 'N' :: 'o' :: 'n' :: 'e' :: rest => some (.null, rest)
    | 'T' :: 'r' :: 'u' :: 'e' :: rest => some (.bool true, rest)
    | 'F' :: 'a' :: 'l' :: 's' :: 'e' :: rest => some (.bool false, rest)
    | '[' :: rest => (readItems fuel (skipBlanks rest)).map fun (items, r) => (.list items, r)
    | '\x7b' :: rest =>
      (readEntries fuel (skipBlanks rest)).map fun (entries, r) => (.mapping entries, r)
    | '"' :: _ | '\x27' :: _ => (readText cs).map fun (s, r) => (.text s, r)
    | cs => (readInt cs).map fun (i, r) => (.number (.int i), r)

/-- The items of a list up to its closing bracket. -/
def readItems : (fuel : Nat) → List Char → Option (List Value × List Char)
  | 0, _ => none
  | fuel + 1, cs =>
    match cs with
    | ']' :: rest => some ([], rest)
    | cs =>
      (readWithin fuel cs).bind fun (v, r) =>
        match skipBlanks r with
        | ',' :: rest => (readItems fuel (skipBlanks rest)).map fun (items, r) => (v :: items, r)
        | ']' :: rest => some ([v], rest)
        | _ => none

/-- The entries of a mapping up to its closing brace, in the order in which they stand. -/
def readEntries : (fuel : Nat) → List Char → Option (List (String × Value) × List Char)
  | 0, _ => none
  | fuel + 1, cs =>
    match cs with
    | '\x7d' :: rest => some ([], rest)
    | cs =>
      (readText cs).bind fun (k, r) =>
        match skipBlanks r with
        | ':' :: rest =>
          (readWithin fuel (skipBlanks rest)).bind fun (v, r) =>
            match skipBlanks r with
            | ',' :: rest =>
              (readEntries fuel (skipBlanks rest)).map fun (entries, r) => ((k, v) :: entries, r)
            | '\x7d' :: rest => some ([(k, v)], rest)
            | _ => none
        | _ => none

end

/-- A literal at the start of a text, and what follows it. -/
def read? (text : String) : Option (Value × String) :=
  (readWithin text.length text.toList).map fun (v, rest) => (v, String.ofList rest)

/-! ## Quoted texts -/

/-- Two hexadecimal digits are read back. -/
theorem ofHexPair?_hexPair : ∀ n < 0x80,
    ofHexPair? (Nat.digitChar (n / 16 % 16)) (Nat.digitChar (n % 16)) = some (Char.ofNat n) := by
  decide

/-- A character that stands for itself is read as such. -/
theorem readQuoted_plain {q c : Char} (rest : List Char) (hq : c ≠ q) (hb : c ≠ '\\')
    (hn : c ≠ '\n') (hr : c ≠ '\r') :
    readQuoted q (c :: rest) = (readQuoted q rest).map fun (s, r) => (c :: s, r) := by
  rw [readQuoted.eq_def]
  split <;> simp_all

/-- An escape by one letter is read as the character it stands for. -/
theorem readQuoted_letter {e c : Char} (q : Char) (rest : List Char) (h : escaped? e = some c) :
    readQuoted q ('\\' :: e :: rest) = (readQuoted q rest).map fun (s, r) => (c :: s, r) := by
  have hx : e ≠ 'x' := by
    rintro rfl
    simp [escaped?] at h
  rw [readQuoted]
  · simp [h]
  · intro a b rest' he
    simp_all

/-- The characters that stand for one character are read as that character. -/
theorem readQuoted_escape {q : Char} (hq : q = '"' ∨ q = '\x27') (c : Char) (rest : List Char) :
    readQuoted q (escape q c ++ rest) = (readQuoted q rest).map fun (s, r) => (c :: s, r) := by
  unfold escape
  split
  · next hc => subst hc; exact readQuoted_letter q rest rfl
  split
  · next hc => subst hc; exact readQuoted_letter q rest rfl
  split
  · next hc => subst hc; exact readQuoted_letter q rest rfl
  split
  · next hc => subst hc; exact readQuoted_letter q rest rfl
  split
  · next hc =>
    subst hc
    exact readQuoted_letter c rest (by rcases hq with rfl | rfl <;> rfl)
  split
  · next hc =>
    -- Control characters are written by two hexadecimal digits, which is enough for all of them.
    have hlt : c.toNat < 0x80 := by omega
    simp [hexPair, readQuoted, ofHexPair?_hexPair c.toNat hlt, Char.ofNat_toNat]
  · next hb hn hr _ hq _ => exact readQuoted_plain rest hq hb hn hr

/-- An escaped text is read up to the quote that closes it. -/
theorem readQuoted_flatMap {q : Char} (hq : q = '"' ∨ q = '\x27') (cs rest : List Char) :
    readQuoted q (cs.flatMap (escape q) ++ q :: rest) = some (cs, rest) := by
  induction cs with
  | nil =>
    have hb : q ≠ '\\' := by rcases hq with rfl | rfl <;> decide
    rw [List.flatMap_nil, List.nil_append, readQuoted.eq_def]
    split <;> simp_all
  | cons c cs ih =>
    rw [List.flatMap_cons, List.append_assoc, readQuoted_escape hq, ih]
    rfl

/-- A quoted text is read back, with any text after it. -/
theorem readText_quote {q : Char} (hq : q = '"' ∨ q = '\x27') (s : String) (rest : List Char) :
    readText ((quote q s).toList ++ rest) = some (s, rest) := by
  have hread := readQuoted_flatMap hq s.toList rest
  simp only [quote, String.toList_ofList, List.cons_append, List.append_assoc, List.nil_append,
    readText]
  rw [if_pos hq, hread]
  simp

/-- Whichever quotes a text gets, it is read back. -/
theorem readText_text (s : String) (rest : List Char) :
    readText ((text s).toList ++ rest) = some (s, rest) := by
  unfold text
  split
  · exact readText_quote (.inl rfl) s rest
  · exact readText_quote (.inr rfl) s rest

/-! ## Numbers -/

/-- A text that no digit begins, so that a number before it ends there. -/
def EndsNumber (rest : List Char) : Prop := ∀ c ∈ rest.head?, c.isDigit = false

theorem endsNumber_empty : EndsNumber "".toList := by simp [EndsNumber]

/-- Digits are read up to the first character that is none. -/
theorem readDigits_append {digits rest : List Char} (hne : digits ≠ [])
    (hd : ∀ c ∈ digits, c.isDigit = true) (hr : EndsNumber rest) :
    readDigits (digits ++ rest) = some (Nat.ofDigitChars 10 digits 0, rest) := by
  -- The run of digits stops at the rest, which begins with none.
  have hstop : rest.takeWhile Char.isDigit = [] ∧ rest.dropWhile Char.isDigit = rest := by
    cases rest with
    | nil => simp
    | cons c cs =>
      have hc : c.isDigit = false := hr c rfl
      simp [hc]
  unfold readDigits
  rw [List.takeWhile_append_of_pos hd, List.dropWhile_append_of_pos hd, hstop.1, hstop.2]
  simp [hne]

/-- The digits of a number are read back. -/
theorem readDigits_toDigits (n : Nat) {rest : List Char} (hr : EndsNumber rest) :
    readDigits (Nat.toDigits 10 n ++ rest) = some (n, rest) := by
  have hd : ∀ c ∈ Nat.toDigits 10 n, c.isDigit = true := fun c hc =>
    Nat.isDigit_of_mem_toDigits (by decide) (by decide) hc
  rw [readDigits_append Nat.toDigits_ne_nil hd hr, Nat.ofDigitChars_ten_toDigits]

/-- The first digit of a number, and those after it. -/
theorem exists_toDigits (n : Nat) :
    ∃ c cs, Nat.toDigits 10 n = c :: cs ∧ c.isDigit = true := by
  cases h : Nat.toDigits 10 n with
  | nil => exact absurd h Nat.toDigits_ne_nil
  | cons c cs =>
    refine ⟨c, cs, rfl, Nat.isDigit_of_mem_toDigits (b := 10) (n := n) (by decide) (by decide) ?_⟩
    rw [h]
    exact List.mem_cons_self

/-- A whole number begins with a minus sign or a digit. -/
theorem exists_number (i : Int) :
    ∃ c cs, (number (.int i)).toList = c :: cs ∧ (c = '-' ∨ c.isDigit = true) := by
  simp only [number, Int.toString_eq_repr, Int.repr, Nat.repr]
  cases i with
  | ofNat n =>
    obtain ⟨c, cs, hn, hc⟩ := exists_toDigits n
    exact ⟨c, cs, by simp [hn], .inr hc⟩
  | negSucc n => exact ⟨'-', Nat.toDigits 10 n.succ, by simp, .inl rfl⟩

/-- A decimal is written with digits and a point. -/
theorem mem_positional {d : Decimal} {c : Char} (hc : c ∈ d.positional) :
    c.isDigit = true ∨ c = '.' := by
  have hdigit : ∀ c ∈ d.digitText, c.isDigit = true := fun c hc =>
    Nat.isDigit_of_mem_toDigits (by decide) (by decide) hc
  have hzero : ∀ n, ∀ c ∈ List.replicate n '0', c.isDigit = true := fun n c hc =>
    List.eq_of_mem_replicate hc ▸ rfl
  simp only [Decimal.positional] at hc
  split at hc
  · simp only [List.mem_append, List.mem_cons, List.not_mem_nil, or_false] at hc
    rcases hc with (hc | hc) | rfl | rfl
    · exact .inl (hdigit c hc)
    · exact .inl (hzero _ c hc)
    · exact .inr rfl
    · exact .inl rfl
  split at hc
  · simp only [List.mem_append, List.mem_cons] at hc
    rcases hc with hc | rfl | hc
    · exact .inl (hdigit c (List.mem_of_mem_take hc))
    · exact .inr rfl
    · exact .inl (hdigit c (List.mem_of_mem_drop hc))
  · simp only [List.cons_append, List.mem_append, List.mem_cons] at hc
    rcases hc with rfl | rfl | hc | hc
    · exact .inl rfl
    · exact .inr rfl
    · exact .inl (hzero _ c hc)
    · exact .inl (hdigit c hc)

/-- A number is written with digits, a point and a minus sign. -/
theorem mem_number {n : Number} {c : Char} (hc : c ∈ (number n).toList) :
    c.isDigit = true ∨ c = '.' ∨ c = '-' := by
  cases n with
  | int i =>
    have hdigit : ∀ m : Nat, c ∈ Nat.toDigits 10 m → c.isDigit = true := fun m hm =>
      Nat.isDigit_of_mem_toDigits (by decide) (by decide) hm
    simp only [number, Int.toString_eq_repr, Int.repr, Nat.repr] at hc
    cases i with
    | ofNat m => exact .inl (hdigit m (by simpa using hc))
    | negSucc m =>
      simp only [String.toList_append, String.toList_ofList, List.mem_append] at hc
      rcases hc with hc | hc
      · exact .inr (.inr (by simpa using hc))
      · exact .inl (hdigit _ hc)
  | float x =>
    simp only [number, String.toList_ofList] at hc
    split at hc
    · rcases List.mem_cons.1 hc with rfl | hc
      · exact .inr (.inr rfl)
      · exact (mem_positional hc).imp_right .inl
    · exact (mem_positional hc).imp_right .inl

/-- A whole number is read back. -/
theorem readInt_number (i : Int) {rest : List Char} (hr : EndsNumber rest) :
    readInt ((number (.int i)).toList ++ rest) = some (i, rest) := by
  cases i with
  | ofNat n =>
    obtain ⟨c, cs, hn, hc⟩ := exists_toDigits n
    -- A digit is first, so the reader does not take the branch of the minus sign.
    have hminus : c ≠ '-' := by
      rintro rfl
      simp at hc
    have hread := readDigits_toDigits n hr
    simp only [number, Int.toString_eq_repr, Int.repr, Nat.repr, String.toList_ofList]
    rw [hn, List.cons_append] at hread ⊢
    rw [readInt.eq_def]
    split <;> simp_all
  | negSucc n =>
    have hread := readDigits_toDigits n.succ hr
    simp only [number, Int.toString_eq_repr, Int.repr, Nat.repr, String.toList_append,
      String.toList_ofList]
    show (readDigits (Nat.toDigits 10 n.succ ++ rest)).map (fun (n, r) => (-(n : Int), r)) = _
    rw [hread]
    rfl

end Literal

/-! ## Values with whole numbers only -/

namespace Value

mutual

/-- Whether every number in a value is whole. -/
def isWhole : Value → Bool
  | .number (.float _) => false
  | .list items => areWhole items
  | .mapping entries => entriesAreWhole entries
  | _ => true

/-- Whether every number in some values is whole. -/
def areWhole : List Value → Bool
  | [] => true
  | v :: rest => isWhole v && areWhole rest

/-- Whether every number in the values of some entries is whole. -/
def entriesAreWhole : List (String × Value) → Bool
  | [] => true
  | (_, v) :: rest => isWhole v && entriesAreWhole rest

end

end Value

namespace Literal

/-! ## Values -/

/-- The characters that can begin a literal do not end a list or a mapping, and are no blanks. -/
def Opens (cs : List Char) : Prop := ∃ c rest, cs = c :: rest ∧ c ≠ ' ' ∧ c ≠ ']' ∧ c ≠ '\x7d'

/-- A quoted text opens a literal. -/
theorem opens_text (s : String) : Opens (text s).toList := by
  unfold text
  split
  · exact ⟨'"', s.toList.flatMap (escape '"') ++ ['"'], by simp [double, quote], by decide⟩
  · exact ⟨'\x27', s.toList.flatMap (escape '\x27') ++ ['\x27'], by simp [single, quote], by decide⟩

/-- The literal of a value opens a literal. -/
theorem opens_write (v : Value) (hv : v.isWhole = true) : Opens (write v).toList := by
  cases v with
  | null => exact ⟨'N', _, rfl, by decide⟩
  | bool b =>
    cases b
    · exact ⟨'F', _, rfl, by decide⟩
    · exact ⟨'T', _, rfl, by decide⟩
  | number n =>
    cases n with
    | float x => simp [Value.isWhole] at hv
    | int i =>
      obtain ⟨c, cs, hi, hc⟩ := exists_number i
      refine ⟨c, cs, hi, ?_, ?_, ?_⟩ <;> · rintro rfl; simp at hc
  | text s => exact opens_text s
  | list items => exact ⟨'[', (writeItems items).toList ++ [']'], by simp [write], by decide⟩
  | mapping entries =>
    exact ⟨'\x7b', (writeEntries entries).toList ++ ['\x7d'], by simp [write], by decide⟩

/-- What opens a literal does so whatever follows. -/
theorem Opens.append {cs : List Char} (h : Opens cs) (rest : List Char) : Opens (cs ++ rest) := by
  obtain ⟨c, cs, rfl, hc⟩ := h
  exact ⟨c, cs ++ rest, rfl, hc⟩

/-- What opens a literal has no blanks before it. -/
theorem skipBlanks_of_opens {cs : List Char} (h : Opens cs) : skipBlanks cs = cs := by
  obtain ⟨c, cs, rfl, hc, -⟩ := h
  simp [skipBlanks, hc]

/-- A blank before a literal is skipped. -/
theorem skipBlanks_blank {cs : List Char} (h : Opens cs) : skipBlanks (' ' :: cs) = cs :=
  skipBlanks_of_opens h

/-- Reading the first of some items, and the others after it. -/
theorem readItems_of_opens {cs : List Char} (h : Opens cs) (fuel : Nat) :
    readItems (fuel + 1) cs =
      (readWithin fuel cs).bind fun (v, r) =>
        match skipBlanks r with
        | ',' :: rest => (readItems fuel (skipBlanks rest)).map fun (items, r) => (v :: items, r)
        | ']' :: rest => some ([v], rest)
        | _ => none := by
  obtain ⟨c, cs, rfl, -, hc, -⟩ := h
  rw [readItems]
  intro rest he
  exact hc (List.cons.inj he).1

/-- Reading the first of some entries, and the others after it. -/
theorem readEntries_of_opens {cs : List Char} (h : Opens cs) (fuel : Nat) (k : String) :
    readEntries (fuel + 1) ((text k).toList ++ ':' :: ' ' :: cs) =
      (readWithin fuel cs).bind fun (v, r) =>
        match skipBlanks r with
        | ',' :: rest =>
          (readEntries fuel (skipBlanks rest)).map fun (entries, r) => ((k, v) :: entries, r)
        | '\x7d' :: rest => some ([(k, v)], rest)
        | _ => none := by
  have hkey := readText_text k (':' :: ' ' :: cs)
  obtain ⟨c, ks, hk, -, -, hc⟩ := opens_text k
  rw [hk, List.cons_append] at hkey ⊢
  rw [readEntries]
  · rw [hkey, Option.bind_some]
    show (match skipBlanks (':' :: ' ' :: cs) with | ':' :: rest => _ | _ => none) = _
    rw [show skipBlanks (':' :: ' ' :: cs) = ':' :: ' ' :: cs from rfl]
    simp only [skipBlanks_blank h]
  · intro rest he
    exact hc (List.cons.inj he).1

/-- A text is read as a value. -/
theorem readWithin_text {q : Char} (hq : q = '"' ∨ q = '\x27') (fuel : Nat) (s : String)
    (rest : List Char) :
    readWithin (fuel + 1) ((quote q s).toList ++ rest) = some (.text s, rest) := by
  have hread := readText_quote hq s rest
  rcases hq with rfl | rfl <;>
    simp only [quote, String.toList_ofList, List.cons_append] at hread ⊢ <;>
    rw [readWithin, hread] <;> rfl

/-- A whole number is read as a value. -/
theorem readWithin_int (fuel : Nat) (i : Int) {rest : List Char} (hr : EndsNumber rest) :
    readWithin (fuel + 1) ((number (.int i)).toList ++ rest) = some (.number (.int i), rest) := by
  have hread := readInt_number i hr
  obtain ⟨c, cs, hi, hc⟩ := exists_number i
  rw [hi, List.cons_append] at hread ⊢
  rw [readWithin]
  · rw [hread]
    rfl
  all_goals
    intro rest' he
    obtain ⟨rfl, -⟩ := List.cons.inj he
    simp at hc

mutual

/-- **Reading back.**  The literal of a value with whole numbers is read as that value, and what follows
it is left. -/
theorem readWithin_write : ∀ (v : Value) (fuel : Nat) (rest : List Char), v.isWhole = true →
    (write v).toList.length ≤ fuel → EndsNumber rest →
    readWithin fuel ((write v).toList ++ rest) = some (v, rest)
  | v, 0, _ => by
    intro hv hf _
    -- No literal is empty, so there is fuel for at least one step.
    obtain ⟨c, cs, hc, -⟩ := opens_write v hv
    simp [hc] at hf
  | .null, fuel + 1, rest => fun _ _ _ => rfl
  | .bool true, fuel + 1, rest => fun _ _ _ => rfl
  | .bool false, fuel + 1, rest => fun _ _ _ => rfl
  | .number (.float _), _ + 1, _ => by
    intro hv _ _
    simp [Value.isWhole] at hv
  | .number (.int i), fuel + 1, rest => fun _ _ hr => readWithin_int fuel i hr
  | .text s, fuel + 1, rest => by
    intro _ _ _
    rw [write, text]
    split
    · exact readWithin_text (.inl rfl) fuel s rest
    · exact readWithin_text (.inr rfl) fuel s rest
  | .list items, fuel + 1, rest => by
    intro hv hf _
    have hlist : (write (.list items)).toList = '[' :: (writeItems items).toList ++ [']'] := by
      simp [write]
    rw [hlist] at hf ⊢
    have hlen : (writeItems items).toList.length < fuel := by
      simp only [List.length_append, List.length_cons, List.length_nil] at hf
      omega
    have hread := readItems_writeItems items fuel rest (by simpa [Value.isWhole] using hv) hlen
    simp only [List.cons_append, List.append_assoc, List.nil_append, readWithin]
    rw [hread]
    rfl
  | .mapping entries, fuel + 1, rest => by
    intro hv hf _
    have hmap : (write (.mapping entries)).toList
        = '\x7b' :: (writeEntries entries).toList ++ ['\x7d'] := by
      simp [write]
    rw [hmap] at hf ⊢
    have hlen : (writeEntries entries).toList.length < fuel := by
      simp only [List.length_append, List.length_cons, List.length_nil] at hf
      omega
    have hread :=
      readEntries_writeEntries entries fuel rest (by simpa [Value.isWhole] using hv) hlen
    simp only [List.cons_append, List.append_assoc, List.nil_append, readWithin]
    rw [hread]
    rfl

/-- The items of a list are read up to its closing bracket. -/
theorem readItems_writeItems : ∀ (items : List Value) (fuel : Nat) (rest : List Char),
    Value.areWhole items = true → (writeItems items).toList.length < fuel →
    readItems fuel (skipBlanks ((writeItems items).toList ++ ']' :: rest)) = some (items, rest)
  | _, 0, _ => fun _ hf => absurd hf (Nat.not_lt_zero _)
  | [], fuel + 1, rest => fun _ _ => rfl
  | [v], fuel + 1, rest => by
    intro hv hf
    have hv : v.isWhole = true := by simpa [Value.areWhole] using hv
    have hopen := (opens_write v hv).append (']' :: rest)
    have hlen : (write v).toList.length ≤ fuel := by
      rw [writeItems] at hf
      omega
    have hread := readWithin_write v fuel (']' :: rest) hv hlen (by simp [EndsNumber])
    rw [writeItems, skipBlanks_of_opens hopen, readItems_of_opens hopen, hread]
    rfl
  | v :: w :: items, fuel + 1, rest => by
    intro hv hf
    obtain ⟨hv, hw⟩ : v.isWhole = true ∧ Value.areWhole (w :: items) = true := by
      simpa [Value.areWhole] using hv
    have hcat : (writeItems (v :: w :: items)).toList ++ ']' :: rest
        = (write v).toList ++ ',' :: ' ' :: ((writeItems (w :: items)).toList ++ ']' :: rest) := by
      simp [writeItems]
    have hopen := (opens_write v hv).append
      (',' :: ' ' :: ((writeItems (w :: items)).toList ++ ']' :: rest))
    -- The comma and the blank pay for the two nested readings.
    have hlen : (write v).toList.length + 2 + (writeItems (w :: items)).toList.length ≤ fuel := by
      simp only [writeItems, String.toList_append, List.length_append] at hf
      simp at hf
      omega
    have hread := readWithin_write v fuel
      (',' :: ' ' :: ((writeItems (w :: items)).toList ++ ']' :: rest)) hv (by omega)
      (by simp [EndsNumber])
    have hrest := readItems_writeItems (w :: items) fuel rest hw (by omega)
    rw [hcat, skipBlanks_of_opens hopen, readItems_of_opens hopen, hread]
    show (readItems fuel (skipBlanks ((writeItems (w :: items)).toList ++ ']' :: rest))).map
      (fun (items, r) => (v :: items, r)) = _
    rw [hrest]
    rfl

/-- The entries of a mapping are read up to its closing brace. -/
theorem readEntries_writeEntries : ∀ (entries : List (String × Value)) (fuel : Nat)
    (rest : List Char), Value.entriesAreWhole entries = true →
    (writeEntries entries).toList.length < fuel →
    readEntries fuel (skipBlanks ((writeEntries entries).toList ++ '\x7d' :: rest))
      = some (entries, rest)
  | _, 0, _ => fun _ hf => absurd hf (Nat.not_lt_zero _)
  | [], fuel + 1, rest => fun _ _ => rfl
  | [(k, v)], fuel + 1, rest => by
    intro hv hf
    have hv : v.isWhole = true := by simpa [Value.entriesAreWhole] using hv
    have hcat : (writeEntries [(k, v)]).toList ++ '\x7d' :: rest
        = (text k).toList ++ ':' :: ' ' :: ((write v).toList ++ '\x7d' :: rest) := by
      simp [writeEntries]
    have hlen : (write v).toList.length ≤ fuel := by
      simp only [writeEntries, String.toList_append, List.length_append] at hf
      omega
    have hread := readWithin_write v fuel ('\x7d' :: rest) hv hlen (by simp [EndsNumber])
    rw [hcat, skipBlanks_of_opens ((opens_text k).append _),
      readEntries_of_opens ((opens_write v hv).append _), hread]
    rfl
  | (k, v) :: w :: entries, fuel + 1, rest => by
    intro hv hf
    obtain ⟨hv, hw⟩ : v.isWhole = true ∧ Value.entriesAreWhole (w :: entries) = true := by
      simpa [Value.entriesAreWhole] using hv
    have hcat : (writeEntries ((k, v) :: w :: entries)).toList ++ '\x7d' :: rest
        = (text k).toList ++ ':' :: ' ' :: ((write v).toList
            ++ ',' :: ' ' :: ((writeEntries (w :: entries)).toList ++ '\x7d' :: rest)) := by
      simp [writeEntries]
    -- The key and its separators pay for the step; value and other entries share the remaining fuel.
    have hlen : (write v).toList.length + (writeEntries (w :: entries)).toList.length < fuel := by
      simp only [writeEntries, String.toList_append, List.length_append] at hf
      simp at hf
      omega
    have hread := readWithin_write v fuel
      (',' :: ' ' :: ((writeEntries (w :: entries)).toList ++ '\x7d' :: rest)) hv (by omega)
      (by simp [EndsNumber])
    have hrest := readEntries_writeEntries (w :: entries) fuel rest hw (by omega)
    rw [hcat, skipBlanks_of_opens ((opens_text k).append _),
      readEntries_of_opens ((opens_write v hv).append _), hread]
    show (readEntries fuel (skipBlanks ((writeEntries (w :: entries)).toList ++ '\x7d' :: rest))).map
      (fun (entries, r) => ((k, v) :: entries, r)) = _
    rw [hrest]
    rfl

end

/-- A text in quotes of either kind is read back from the start of a text. -/
theorem read?_quote {q : Char} (hq : q = '"' ∨ q = '\x27') (s rest : String) :
    read? (quote q s ++ rest) = some (.text s, rest) := by
  have hlen : (quote q s ++ rest).length
      = (s.toList.flatMap (escape q) ++ [q]).length + rest.length + 1 := by
    simp [quote, String.length_append]
    omega
  rw [read?, hlen, String.toList_append, readWithin_text hq]
  simp

/-- A literal is read back from the start of a text. -/
theorem read?_write (v : Value) (rest : String) (hv : v.isWhole = true)
    (hr : EndsNumber rest.toList) : read? (write v ++ rest) = some (v, rest) := by
  have hlen : (write v).toList.length ≤ (write v ++ rest).length := by
    rw [String.length_append, String.length_toList]
    omega
  rw [read?, String.toList_append, readWithin_write v _ rest.toList hv hlen hr]
  simp

/-- Literals with texts after them are equal only part by part. -/
theorem write_cancel {v w : Value} {r t : String} (hv : v.isWhole = true) (hw : w.isWhole = true)
    (hr : EndsNumber r.toList) (ht : EndsNumber t.toList) (h : write v ++ r = write w ++ t) :
    v = w ∧ r = t := by
  have hread := read?_write v r hv hr
  rw [h, read?_write w t hw ht] at hread
  simpa using hread.symm

/-- Quoted texts with texts after them are equal only part by part, whichever quotes they have. -/
theorem quote_cancel {p q : Char} {s t r u : String} (hp : p = '"' ∨ p = '\x27')
    (hq : q = '"' ∨ q = '\x27') (h : quote p s ++ r = quote q t ++ u) : s = t ∧ r = u := by
  have hread := read?_quote hp s r
  rw [h, read?_quote hq t u] at hread
  simpa using hread.symm

/-! ## Literals piece by piece -/

/-- The pieces of literals besides texts and numbers. -/
def fixedPieces : List String := ["", "None", "True", "False", "[", "]", "\x7b", "\x7d", ", ", ": "]

/-- A property of texts that goes from the pieces of a literal to the whole. -/
structure OfPieces (P : String → Prop) : Prop where
  append : ∀ {s t : String}, P s → P t → P (s ++ t)
  text : ∀ s, P (text s)
  number : ∀ n, P (number n)
  fixed : ∀ s ∈ fixedPieces, P s

section Pieces

variable {P : String → Prop} (h : OfPieces P)
include h

mutual

/-- The literal of a value has every property that goes from pieces to the whole. -/
theorem write_of_pieces : ∀ v : Value, P (write v)
  | .null => h.fixed "None" (by decide)
  | .bool true => h.fixed "True" (by decide)
  | .bool false => h.fixed "False" (by decide)
  | .number n => h.number n
  | .text s => h.text s
  | .list items =>
    h.append (h.append (h.fixed "[" (by decide)) (writeItems_of_pieces items))
      (h.fixed "]" (by decide))
  | .mapping entries =>
    h.append (h.append (h.fixed "\x7b" (by decide)) (writeEntries_of_pieces entries))
      (h.fixed "\x7d" (by decide))

/-- So have the literals of a list's items. -/
theorem writeItems_of_pieces : ∀ items : List Value, P (writeItems items)
  | [] => h.fixed "" (by decide)
  | [v] => write_of_pieces v
  | v :: w :: rest =>
    h.append (h.append (write_of_pieces v) (h.fixed ", " (by decide)))
      (writeItems_of_pieces (w :: rest))

/-- So have the entries of a mapping. -/
theorem writeEntries_of_pieces : ∀ entries : List (String × Value), P (writeEntries entries)
  | [] => h.fixed "" (by decide)
  | [(k, v)] => h.append (h.append (h.text k) (h.fixed ": " (by decide))) (write_of_pieces v)
  | (k, v) :: w :: rest =>
    h.append
      (h.append (h.append (h.append (h.text k) (h.fixed ": " (by decide))) (write_of_pieces v))
        (h.fixed ", " (by decide)))
      (writeEntries_of_pieces (w :: rest))

end

end Pieces

/-! ## Line ends -/

/-- A text without line ends. -/
def OneLine (s : String) : Prop := ∀ c ∈ s.toList, c ≠ '\n' ∧ c ≠ '\r'

/-- Texts one after the other are one line if each of them is. -/
theorem oneLine_append {s t : String} (hs : OneLine s) (ht : OneLine t) : OneLine (s ++ t) := by
  intro c hc
  rw [String.toList_append, List.mem_append] at hc
  rcases hc with hc | hc
  · exact hs c hc
  · exact ht c hc

/-- No digit of base sixteen is a line end. -/
theorem digitChar_ne_lineEnd : ∀ n < 16, Nat.digitChar n ≠ '\n' ∧ Nat.digitChar n ≠ '\r' := by
  decide

/-- The characters that stand for one character hold no line end. -/
theorem escape_ne_lineEnd {q : Char} (hq : q = '"' ∨ q = '\x27') (c : Char) :
    ∀ d ∈ escape q c, d ≠ '\n' ∧ d ≠ '\r' := by
  unfold escape
  split
  · simp
  split
  · simp
  split
  · simp
  split
  · simp
  split
  · next hc =>
    subst hc
    rcases hq with rfl | rfl <;> simp
  split
  · intro d hd
    have h₁ := digitChar_ne_lineEnd (c.toNat / 16 % 16) (Nat.mod_lt _ (by decide))
    have h₂ := digitChar_ne_lineEnd (c.toNat % 16) (Nat.mod_lt _ (by decide))
    simp only [hexPair, List.mem_cons, List.not_mem_nil, or_false] at hd
    rcases hd with rfl | rfl | rfl | rfl
    · decide
    · decide
    · exact h₁
    · exact h₂
  · next hn hr _ _ _ =>
    intro d hd
    rw [List.mem_singleton] at hd
    exact hd ▸ ⟨hn, hr⟩

/-- A quoted text is one line, whatever it holds. -/
theorem oneLine_quote {q : Char} (hq : q = '"' ∨ q = '\x27') (s : String) : OneLine (quote q s) := by
  intro c hc
  have hquote : q ≠ '\n' ∧ q ≠ '\r' := by rcases hq with rfl | rfl <;> decide
  simp only [quote, String.toList_ofList, List.cons_append, List.mem_cons, List.mem_append,
    List.mem_flatMap, List.not_mem_nil, or_false] at hc
  rcases hc with rfl | ⟨d, -, hd⟩ | rfl
  · exact hquote
  · exact escape_ne_lineEnd hq d c hd
  · exact hquote

/-- A text is one line in any of the three ways in which it is quoted. -/
theorem oneLine_text (s : String) : OneLine (text s) := by
  unfold text
  split
  · exact oneLine_quote (.inl rfl) s
  · exact oneLine_quote (.inr rfl) s

/-- A number is one line. -/
theorem oneLine_number (n : Number) : OneLine (number n) := by
  intro c hc
  rcases mem_number hc with hc | rfl | rfl
  · constructor <;> · rintro rfl; simp at hc
  · decide
  · decide

/-- The literal of a value is one line. -/
theorem oneLine_write (v : Value) : OneLine (write v) :=
  write_of_pieces (P := OneLine) ⟨oneLine_append, oneLine_text, oneLine_number, by simp [fixedPieces, OneLine]⟩ v

/-! ## Names -/

theorem continuesName_of_isIdentifier {s : String} (h : isIdentifier s = true) :
    ∀ c ∈ s.toList, continuesName c = true := by
  unfold isIdentifier at h
  split at h
  · cases h
  · next first rest hchars =>
    rw [Bool.and_eq_true, List.all_eq_true, startsName, Bool.or_eq_true] at h
    rw [hchars, List.forall_mem_cons, continuesName, Char.isAlphanum, Bool.or_eq_true, Bool.or_eq_true]
    exact ⟨h.1.imp_left .inl, h.2⟩

/-! ## The round trip -/

/-- **Literals evaluate back.**  The literal of a value with whole numbers is read as that value, with its
items and entries in order, whatever follows it, as long as that does not begin with a digit.  A text is
read back in each of the three ways in which it is quoted, whatever follows it.  No literal holds a
line end. -/
theorem literal_round_trip :
    (∀ (v : Value) (rest : String), v.isWhole = true → EndsNumber rest.toList →
      read? (write v ++ rest) = some (v, rest)) ∧
    (∀ s rest : String, read? (double s ++ rest) = some (.text s, rest) ∧
      read? (single s ++ rest) = some (.text s, rest) ∧
      read? (text s ++ rest) = some (.text s, rest)) ∧
    (∀ v : Value, OneLine (write v)) ∧
    ∀ s : String, OneLine (double s) ∧ OneLine (single s) ∧ OneLine (text s) := by
  refine ⟨read?_write, fun s rest => ⟨?_, ?_, ?_⟩, oneLine_write, fun s => ⟨?_, ?_, ?_⟩⟩
  · exact read?_quote (.inl rfl) s rest
  · exact read?_quote (.inr rfl) s rest
  · unfold text
    split
    · exact read?_quote (.inl rfl) s rest
    · exact read?_quote (.inr rfl) s rest
  · exact oneLine_quote (.inl rfl) s
  · exact oneLine_quote (.inr rfl) s
  · exact oneLine_text s

/-- A mapping whose key and text hold backslashes, both kinds of quotes and control characters. -/
theorem literal_round_trip_quotes :
    let v := Value.mapping
      [("it\x27s \\", .list [.text "\"\x27\n\x7f\\", .number (.int (-7))]), ("", .mapping [])]
    v.isWhole = true ∧ EndsNumber ").x".toList ∧ read? (write v ++ ").x") = some (v, ").x") :=
  ⟨by decide, by simp [EndsNumber],
    literal_round_trip.1 _ _ (by decide) (by simp [EndsNumber])⟩

end Literal

end TestScribe
