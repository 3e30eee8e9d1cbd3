import Flowchart.Json.Basic

/-!
Reading typed data out of JSON values. A record is an object whose keys may stand in any order, with
unknown keys ignored and known keys given once, or an array of the fields in their declared order. A
field with a fallback may be missing, and null is taken only where a reader is nullable. A name of a
fixed list is a string, or an object that has the name as its one key and null as its value.
-/
namespace Flowchart.Json

/-- A number written with digits only, up to `limit`. -/
def natUpTo? (limit : Nat) : Json → Option Nat
  | .number spelling =>
    if spelling.all Char.isDigit ∧ Text.decimalValue spelling ≤ limit then
      some (Text.decimalValue spelling)
    else none
  | _ => none

def nat? : Json → Option Nat := natUpTo? Text.maxNatural

def bool? : Json → Option Bool
  | .bool value => some value
  | _ => none

def text? : Json → Option Text
  | .string value => some value
  | _ => none

def list? {α : Type} (read : Json → Option α) : Json → Option (List α)
  | .array items => items.mapM read
  | _ => none

def nullable {α : Type} (read : Json → Option α) : Json → Option (Option α)
  | .null => some none
  | value => (read value).map some

/-- One of the listed names, for the value listed beside it. -/
def name? {α : Type} (names : List (Text × α)) : Json → Option α
  | .string name => names.lookup name
  | .object [(name, .null)] => names.lookup name
  | _ => none

/-- The known fields of a record that are given. -/
abbrev Record := List (Text × Json)

/-- The fields of a record with the given names. A name that is given twice is refused, and so is an
array with more items than names. -/
def record? (names : List Text) : Json → Option Record
  | .object fields =>
    let known := fields.filter fun field => names.contains field.1
    if (known.map Prod.fst).Nodup then some known else none
  | .array items => if items.length ≤ names.length then some (names.zip items) else none
  | _ => none

namespace Record

def required {α : Type} (record : Record) (name : Text) (read : Json → Option α) : Option α :=
  (record.lookup name).bind read

def optional {α : Type} (record : Record) (name : Text) (fallback : α) (read : Json → Option α) :
    Option α :=
  match record.lookup name with
  | none => some fallback
  | some value => read value

end Record

end Flowchart.Json
