import Flowchart.Json.Basic

/-!
The two written forms of a JSON value: compact without any blanks, and pretty with two blanks of
indentation a level. Strings escape the quote, the backslash and control characters below U+0020. An
unreadable value is written as null.
-/
namespace Flowchart.Json

def hexDigit (n : Nat) : Char := (Nat.digitChar n)

/-- How one character stands inside a string. -/
def escaped (c : Char) : Text :=
  if c = '\"' then "\\\""
  else if c = '\\' then "\\\\"
  else if c = '\n' then "\\n"
  else if c = '\r' then "\\r"
  else if c = '\t' then "\\t"
  else if c = '\x08' then "\\b"
  else if c = '\x0c' then "\\f"
  else if c.toNat < 0x20 then "\\u00" ++ [hexDigit (c.toNat / 16), hexDigit (c.toNat % 16)]
  else [c]

def quoted (text : Text) : Text := '\"' :: text.flatMap escaped ++ "\""

def openBrace : Text := "\x7b"

def closeBrace : Text := "\x7d"

mutual

def compact : Json → Text
  | .null => "null"
  | .bool true => "true"
  | .bool false => "false"
  | .number spelling => spelling
  | .string value => quoted value
  | .array items => "[" ++ (compactItems items ++ "]")
  | .object fields => openBrace ++ (compactFields fields ++ closeBrace)
  | .unreadable => "null"

def compactItems : List Json → Text
  | [] => []
  | [item] => compact item
  | item :: rest => compact item ++ (',' :: compactItems rest)

def compactFields : List (Text × Json) → Text
  | [] => []
  | [(key, value)] => quoted key ++ (':' :: compact value)
  | (key, value) :: rest => quoted key ++ (':' :: (compact value ++ (',' :: compactFields rest)))

end

def newline (level : Nat) : Text := '\n' :: List.replicate (2 * level) ' '

mutual

/-- The value with every item and field of a non-empty container on its own line. -/
def prettyAt (level : Nat) : Json → Text
  | .null => "null"
  | .bool true => "true"
  | .bool false => "false"
  | .number spelling => spelling
  | .string value => quoted value
  | .array [] => "[]"
  | .array (item :: rest) =>
    "[" ++ (prettyItems (level + 1) (item :: rest) ++ (newline level ++ "]"))
  | .object [] => openBrace ++ closeBrace
  | .object (field :: rest) =>
    openBrace ++ (prettyFields (level + 1) (field :: rest) ++ (newline level ++ closeBrace))
  | .unreadable => "null"

def prettyItems (level : Nat) : List Json → Text
  | [] => []
  | [item] => newline level ++ prettyAt level item
  | item :: rest => newline level ++ (prettyAt level item ++ (',' :: prettyItems level rest))

def prettyFields (level : Nat) : List (Text × Json) → Text
  | [] => []
  | [(key, value)] => newline level ++ (quoted key ++ (": " ++ prettyAt level value))
  | (key, value) :: rest =>
    newline level ++
      (quoted key ++ (": " ++ (prettyAt level value ++ (',' :: prettyFields level rest))))

end

def pretty (value : Json) : Text := prettyAt 0 value

end Flowchart.Json
