/-
# Document values

What a testcase document holds: nothing, truth values, numbers, texts, lists and mappings.  A mapping
is the list of its entries in the order in which their keys first appeared.

* `Value` : the values of a document;
* `Mapping.get?`, `Mapping.set` : look-up and update of a mapping, which keeps the order of its keys;
* `Value.kind` : the name of a value's kind, as error texts give it.
-/
import TestScribe.Number.Binary64

namespace TestScribe

/-- A number is whole or has a fraction or an exponent. -/
inductive Number where
  | int (i : Int)
  | float (x : Binary64)
deriving DecidableEq, Repr, Inhabited

/-- A value of a document. -/
inductive Value where
  | null
  | bool (b : Bool)
  | number (n : Number)
  | text (s : String)
  | list (items : List Value)
  | mapping (entries : List (String × Value))
deriving Repr, Inhabited

/-- The entries of a mapping, in the order in which their keys first appeared. -/
abbrev Mapping := List (String × Value)

namespace Value

/-! ## Equality -/

mutual

/-- Values are compared by their structure. -/
def decEq : (v w : Value) → Decidable (v = w)
  | .null, .null => isTrue rfl
  | .bool a, .bool b => if h : a = b then isTrue (by rw [h]) else isFalse (by simp [h])
  | .number a, .number b => if h : a = b then isTrue (by rw [h]) else isFalse (by simp [h])
  | .text a, .text b => if h : a = b then isTrue (by rw [h]) else isFalse (by simp [h])
  | .list a, .list b =>
    match decEqList a b with
    | isTrue h => isTrue (by rw [h])
    | isFalse h => isFalse (by simp [h])
  | .mapping a, .mapping b =>
    match decEqEntries a b with
    | isTrue h => isTrue (by rw [h])
    | isFalse h => isFalse (by simp [h])
  | .null, .bool _ | .null, .number _ | .null, .text _ | .null, .list _ | .null, .mapping _
  | .bool _, .null | .bool _, .number _ | .bool _, .text _ | .bool _, .list _ | .bool _, .mapping _
  | .number _, .null | .number _, .bool _ | .number _, .text _ | .number _, .list _
  | .number _, .mapping _
  | .text _, .null | .text _, .bool _ | .text _, .number _ | .text _, .list _ | .text _, .mapping _
  | .list _, .null | .list _, .bool _ | .list _, .number _ | .list _, .text _ | .list _, .mapping _
  | .mapping _, .null | .mapping _, .bool _ | .mapping _, .number _ | .mapping _, .text _
  | .mapping _, .list _ => isFalse nofun

/-- Lists are compared item by item. -/
def decEqList : (v w : List Value) → Decidable (v = w)
  | [], [] => isTrue rfl
  | [], _ :: _ => isFalse nofun
  | _ :: _, [] => isFalse nofun
  | a :: v, b :: w =>
    match decEq a b, decEqList v w with
    | isTrue h, isTrue k => isTrue (by rw [h, k])
    | isFalse h, _ => isFalse (by simp [h])
    | _, isFalse k => isFalse (by simp [k])

/-- Mappings are compared entry by entry, in order. -/
def decEqEntries : (v w : List (String × Value)) → Decidable (v = w)
  | [], [] => isTrue rfl
  | [], _ :: _ => isFalse nofun
  | _ :: _, [] => isFalse nofun
  | (j, a) :: v, (k, b) :: w =>
    if h : j = k then
      match decEq a b, decEqEntries v w with
      | isTrue p, isTrue q => isTrue (by rw [h, p, q])
      | isFalse p, _ => isFalse (by simp [p])
      | _, isFalse q => isFalse (by simp [q])
    else isFalse (by simp [h])

end

instance : DecidableEq Value := decEq

/-! ## Kinds -/

/-- The name of a value's kind. -/
def kind : Value → String
  | .null => "null"
  | .bool _ => "bool"
  | .number _ => "number"
  | .text _ => "string"
  | .list _ => "list"
  | .mapping _ => "mapping"

/-- The text of a value that is one. -/
def text? : Value → Option String
  | .text s => some s
  | _ => none

/-- The entries of a value that is a mapping. -/
def mapping? : Value → Option Mapping
  | .mapping m => some m
  | _ => none

/-- Whether a value says nothing: null, or a list or mapping without items. -/
def isVacant : Value → Bool
  | .null => true
  | .list items => items.isEmpty
  | .mapping entries => entries.isEmpty
  | _ => false

end Value

/-! ## Mappings -/

namespace Mapping

/-- The value of a key. -/
def get? (key : String) : Mapping → Option Value
  | [] => none
  | (k, v) :: rest => if k = key then some v else get? key rest

/-- Whether a key is present. -/
def has (key : String) (m : Mapping) : Bool := (get? key m).isSome

/-- A key's value is replaced where the key stands; a new key goes to the end. -/
def set (key : String) (value : Value) : Mapping → Mapping
  | [] => [(key, value)]
  | (k, v) :: rest => if k = key then (k, value) :: rest else (k, v) :: set key value rest

/-- The entries of `more` set one after the other. -/
def merge (m more : Mapping) : Mapping :=
  more.foldl (fun acc entry => set entry.1 entry.2 acc) m

/-- The mapping without a key. -/
def drop (key : String) (m : Mapping) : Mapping :=
  m.filter fun entry => entry.1 ≠ key

/-- The keys in order. -/
def keys (m : Mapping) : List String := m.map Prod.fst

end Mapping

end TestScribe
