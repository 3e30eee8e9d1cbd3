import Flowchart.TypeDesc.Basic
import Flowchart.Text.Blank

/-!
Reading the written form of a type. Every text is some type: what has no other reading is a named
type. Qualifiers are resolved by the caller, and one that is not known leaves the type without a
module.
-/
namespace Flowchart.TypeDesc

/-- The parts of a text between the separators outside all brackets. A closing bracket without a
partner makes the depth negative. -/
def splitOutside (separator : Char) (depth : Int) : Text → List Text
  | [] => [[]]
  | c :: rest =>
    if c = separator ∧ depth = 0 then [] :: splitOutside separator depth rest
    else
      let depth :=
        if c = '(' ∨ c = '<' ∨ c = '[' then depth + 1
        else if c = ')' ∨ c = '>' ∨ c = ']' then depth - 1
        else depth
      match splitOutside separator depth rest with
      | [] => [[c]]
      | part :: more => (c :: part) :: more

/-- The square bracket at the start of a text is closed by its last character. -/
def closesAtEnd (depth : Nat) : Text → Bool
  | [] => false
  | c :: rest =>
    if c = '[' then closesAtEnd (depth + 1) rest
    else if c = ']' then if depth - 1 = 0 then rest.isEmpty else closesAtEnd (depth - 1) rest
    else closesAtEnd depth rest

/-- The text between the square brackets that enclose all of it. -/
def bracketed? (text : Text) : Option Text :=
  if text.head? = some '[' ∧ text.getLast? = some ']' ∧ closesAtEnd 0 text then
    some text.tail.dropLast
  else none

/-- The element type and the size of a text that ends in square brackets. -/
def arrayParts? (text : Text) : Option (Text × Text) := do
  let rest ← Text.stripEnd? ']' text
  Text.cutLast '[' rest

def parenthesized? (text : Text) : Option Text :=
  if text.head? = some '(' ∧ text.getLast? = some ')' ∧ 2 < text.length then
    some text.tail.dropLast
  else none

/-- The text between the angle brackets after a keyword. -/
def argument? (keyword text : Text) : Option Text := do
  let rest ← Text.stripStart? keyword text
  let rest ← Text.stripStart? "<" (Text.trimStart rest)
  Text.stripEnd? '>' rest

/-- A type that is a single name. A qualified name that ends in `Error` is an error type. -/
def ofName (resolve : Text → Option ModuleName) (text : Text) : TypeDesc :=
  match builtin? text with
  | some type => type
  | none =>
    match Text.cut ':' text with
    | some (qualifier, name) =>
      if List.isSuffixOf "Error" name then .error (resolve qualifier) (some name)
      else .named (resolve qualifier) name
    | none => .named none text

/-- The type that a text spells. Its parts are shorter, so a bound of one more than the length is
enough. -/
def readWithin (resolve : Text → Option ModuleName) : (bound : Nat) → Text → TypeDesc
  | 0, text => .named none text
  | bound + 1, text =>
    let text := Text.trim text
    let again := readWithin resolve bound
    match splitOutside '|' 0 text with
    | first :: second :: more => .union ((first :: second :: more).map again)
    | _ =>
      match Text.stripEnd? '?' text with
      | some inner => .optional (again inner)
      | none => match bracketed? text with
        | some inner =>
          .tuple
            (((splitOutside ',' 0 inner).filter fun part => !(Text.trim part).isEmpty).map again)
        | none => match arrayParts? text with
          | some (element, size) => .array (again element) (Text.natural? (Text.trim size))
          | none => match parenthesized? text with
            | some inner => again inner
            | none => match argument? "map" text with
              | some value => .map (again value)
              | none => match argument? "stream" text with
                | some value => .stream (again value)
                | none => ofName resolve text

def read (resolve : Text → Option ModuleName) (text : Text) : TypeDesc :=
  readWithin resolve (text.length + 1) text

end Flowchart.TypeDesc
