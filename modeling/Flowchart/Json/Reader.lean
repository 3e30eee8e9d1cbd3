import Flowchart.Json.Readable
import Flowchart.Json.Writer

/-!
Reading JSON text. A text holds exactly one value with blanks around it. Raw control characters in
strings and numbers with leading zeros are refused. A string with an escape that names half of a
surrogate pair is well formed but unreadable, and so are an object with such a key and the arrays and
objects that stand inside 127 others.
-/
namespace Flowchart.Json

/-- Blanks between the tokens of a value. -/
def skipBlanks (text : Text) : Text :=
  text.dropWhile fun c => c == ' ' || c == '\n' || c == '\t' || c == '\r'

def hexValue? (c : Char) : Option Nat :=
  if '0' ≤ c ∧ c ≤ '9' then some (c.toNat - '0'.toNat)
  else if 'a' ≤ c ∧ c ≤ 'f' then some (c.toNat - 'a'.toNat + 10)
  else if 'A' ≤ c ∧ c ≤ 'F' then some (c.toNat - 'A'.toNat + 10)
  else none

def hexWord? : Text → Option (Nat × Text)
  | a :: b :: c :: d :: rest => do
    let a ← hexValue? a
    let b ← hexValue? b
    let c ← hexValue? c
    let d ← hexValue? d
    pure (((a * 16 + b) * 16 + c) * 16 + d, rest)
  | _ => none

/-- The character of one escape written as a code unit, or as two that form a surrogate pair. Half
of a pair stands for no character. -/
def unicodeEscape? (text : Text) : Option (Option Char × Text) := do
  let (unit, rest) ← hexWord? text
  if 0xDC00 ≤ unit ∧ unit ≤ 0xDFFF then pure (none, rest)
  else if 0xD800 ≤ unit ∧ unit ≤ 0xDBFF then
    match rest with
    | '\\' :: 'u' :: more =>
      match hexWord? more with
      | some (low, after) =>
        if 0xDC00 ≤ low ∧ low ≤ 0xDFFF then
          pure (some (Char.ofNat (0x10000 + (unit - 0xD800) * 0x400 + (low - 0xDC00))), after)
        else pure (none, rest)
      | none => none
    | _ => pure (none, rest)
  else pure (some (Char.ofNat unit), rest)

/-- The character that a backslash and what follows it stand for. -/
def escape? : Text → Option (Option Char × Text)
  | [] => none
  | c :: rest =>
    if c = 'u' then unicodeEscape? rest
    else if c = '\"' ∨ c = '\\' ∨ c = '/' then some (some c, rest)
    else if c = 'n' then some (some '\n', rest)
    else if c = 'r' then some (some '\r', rest)
    else if c = 't' then some (some '\t', rest)
    else if c = 'b' then some (some '\x08', rest)
    else if c = 'f' then some (some '\x0c', rest)
    else none

/-- The rest of a string after its opening quote, and its text if every part of it has one. -/
def stringTail? : (bound : Nat) → Text → Option (Option Text × Text)
  | 0, _ => none
  | _, [] => none
  | bound + 1, c :: rest =>
    if c = '\"' then some (some [], rest)
    else if c.toNat < 0x20 then none
    else do
      let (c, rest) ← if c = '\\' then escape? rest else some (some c, rest)
      let (tail, rest) ← stringTail? bound rest
      pure (c.bind fun c => tail.map (c :: ·), rest)

def string? : Text → Option (Option Text × Text)
  | [] => none
  | c :: rest => if c = '\"' then stringTail? (rest.length + 1) rest else none

def digits? (text : Text) : Option (Text × Text) :=
  let run := text.takeWhile Char.isDigit
  if run.isEmpty then none else some (run, text.dropWhile Char.isDigit)

/-- A single zero, or digits that start with another one. -/
def integer? : Text → Option (Text × Text)
  | '0' :: rest => some ("0", rest)
  | text => digits? text

def optionalPart (part : Text → Option (Option (Text × Text))) (text : Text) :
    Option (Text × Text) :=
  match part text with
  | none => none
  | some none => some ([], text)
  | some (some read) => some read

/-- A point and digits. The outer option fails, the inner one says that there is no fraction. -/
def fraction? : Text → Option (Option (Text × Text))
  | '.' :: rest => (digits? rest).map fun (run, rest) => some ('.' :: run, rest)
  | _ => some none

/-- The letter e, a sign or none, and digits. -/
def exponent? : Text → Option (Option (Text × Text))
  | [] => some none
  | e :: rest =>
    if e = 'e' ∨ e = 'E' then
      let (sign, rest) := match rest with
        | s :: more => if s = '+' ∨ s = '-' then ([s], more) else ([], s :: more)
        | [] => ([], [])
      (digits? rest).map fun (run, rest) => some (e :: sign ++ run, rest)
    else some none

def number? (text : Text) : Option (Text × Text) := do
  let (sign, rest) := match text with
    | '-' :: rest => (['-'], rest)
    | rest => ([], rest)
  let (whole, rest) ← integer? rest
  let (fraction, rest) ← optionalPart fraction? rest
  let (exponent, rest) ← optionalPart exponent? rest
  pure (sign ++ whole ++ fraction ++ exponent, rest)

/-- Items with commas between them up to the closing bracket; at least one. -/
def items? {α : Type} (item : Text → Option (α × Text)) (close : Char) :
    (bound : Nat) → Text → Option (List α × Text)
  | 0, _ => none
  | bound + 1, text => do
    let (first, rest) ← item (skipBlanks text)
    match skipBlanks rest with
    | [] => none
    | c :: rest =>
      if c = close then pure ([first], rest)
      else if c = ',' then
        let (more, rest) ← items? item close bound rest
        pure (first :: more, rest)
      else none

/-- What follows an opening bracket: the closing one, or items. -/
def sequence? {α : Type} (item : Text → Option (α × Text)) (close : Char) (text : Text) :
    Option (List α × Text) :=
  match skipBlanks text with
  | [] => none
  | c :: rest =>
    if c = close then some ([], rest) else items? item close (text.length + 1) (c :: rest)

/-- A key, a colon and a value. The key may have no text. -/
def field? (value : Text → Option (Json × Text)) (text : Text) :
    Option ((Option Text × Json) × Text) := do
  let (key, rest) ← string? text
  match skipBlanks rest with
  | ':' :: rest =>
    let (read, rest) ← value (skipBlanks rest)
    pure ((key, read), rest)
  | _ => none

def ofString : Option Text → Json
  | some text => .string text
  | none => .unreadable

/-- An object, if all of its keys have a text. -/
def ofFields (fields : List (Option Text × Json)) : Json :=
  match fields.mapM fun (key, value) => key.map fun key => (key, value) with
  | some fields => .object fields
  | none => .unreadable

/-- A value that holds at most `bound` levels of arrays and objects. -/
def value? : (bound : Nat) → Text → Option (Json × Text)
  | _, '\"' :: rest => (string? ('\"' :: rest)).map fun (text, rest) => (ofString text, rest)
  | 0, '[' :: _ => none
  | bound + 1, '[' :: rest =>
    (sequence? (value? bound) ']' rest).map fun (items, rest) => (.array items, rest)
  | 0, '\x7b' :: _ => none
  | bound + 1, '\x7b' :: rest =>
    (sequence? (field? (value? bound)) '\x7d' rest).map fun (fields, rest) =>
      (ofFields fields, rest)
  | _, text =>
    match Text.stripStart? "null" text with
    | some rest => some (.null, rest)
    | none => match Text.stripStart? "true" text with
      | some rest => some (.bool true, rest)
      | none => match Text.stripStart? "false" text with
        | some rest => some (.bool false, rest)
        | none => (number? text).map fun (spelling, rest) => (.number spelling, rest)

mutual

/-- The value with all arrays and objects made unreadable that stand inside `room` others. -/
def clip (room : Nat) : Json → Json
  | .array items => if room = 0 then .unreadable else .array (clipEach (room - 1) items)
  | .object fields => if room = 0 then .unreadable else .object (clipFields (room - 1) fields)
  | value => value

def clipEach (room : Nat) : List Json → List Json
  | [] => []
  | item :: rest => clip room item :: clipEach room rest

def clipFields (room : Nat) : List (Text × Json) → List (Text × Json)
  | [] => []
  | (name, value) :: rest => (name, clip room value) :: clipFields room rest

end

/-- How many arrays and objects may stand inside each other. -/
def maxDepth : Nat := 127

def read? (text : Text) : Option Json := do
  let (value, rest) ← value? text.length (skipBlanks text)
  if (skipBlanks rest).isEmpty then some (value.clip maxDepth) else none

/-- The library that the command line uses. -/
def standard : Library := ⟨read?, compact, pretty, isReadable⟩

end Flowchart.Json
