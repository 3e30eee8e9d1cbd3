import Flowchart.Syntax.Error
import Flowchart.Text.Blank
import Flowchart.Text.Numeric
import Flowchart.Token.Basic

/-!
Cutting a text into tokens. Blanks separate tokens and are dropped. The class of a token is
decided by its first characters, and every class takes the longest piece it can.
-/
namespace Flowchart.Token

/-- Symbols of more than one character, in the order in which they are tried. -/
def longSymbols : List Text :=
  ["...", "->", "=>", "==", "!=", "<=", ">=", "&&", "||", "+=", "-=", "*=", "/="]

/-- A comment runs up to the end of its line. -/
def takeComment (text : Text) : Text × Text :=
  (text.takeWhile (· ≠ '\n'), text.dropWhile (· ≠ '\n'))

/-- The rest of a string after its quote. A backslash takes the next character with it, and a bare
line feed leaves the string unfinished. -/
def takeString? (skip : Bool) : Text → Option (Text × Text)
  | [] => none
  | c :: rest =>
    if skip then (takeString? false rest).map fun (body, rest) => (c :: body, rest)
    else if c = '\"' then some ([c], rest)
    else if c = '\n' then none
    else (takeString? (c == '\\') rest).map fun (body, rest) => (c :: body, rest)

/-- The rest of a raw string, which runs to the next back quote over any number of lines. -/
def takeRawString? : Text → Option (Text × Text)
  | [] => none
  | c :: rest =>
    if c = '\x60' then some ([c], rest)
    else (takeRawString? rest).map fun (body, rest) => (c :: body, rest)

/-- The rest of a number after its first digit: digits, letters and underscores, and points that a
digit follows. -/
def takeNumber : Text → Text × Text
  | [] => ([], [])
  | c :: rest =>
    if c.isAlphanum || c == '_' || (c == '.' && rest.head?.any Char.isDigit) then
      let (body, rest) := takeNumber rest
      (c :: body, rest)
    else ([], c :: rest)

def takeWord (text : Text) : Text × Text :=
  (text.takeWhile Text.isWordPart, text.dropWhile Text.isWordPart)

/-- The first long symbol that the text begins with, or its first character. -/
def takeSymbol (c : Char) (rest : Text) : Text × Text :=
  match longSymbols.find? fun s => s.isPrefixOf (c :: rest) with
  | some s => (s, (c :: rest).drop s.length)
  | none => ([c], rest)

/-- The class, the text and what is left of a text that starts with the token `c` begins. Fails on
an unfinished string. -/
def take? (c : Char) (rest : Text) : Option (TokenClass × Text × Text) :=
  if c = '/' ∧ rest.head? = some '/' then
    let (body, rest) := takeComment (c :: rest)
    some (.comment, body, rest)
  else if c = '\"' then (takeString? false rest).map fun (body, rest) => (.quoted, c :: body, rest)
  else if c = '\x60' then (takeRawString? rest).map fun (body, rest) => (.quoted, c :: body, rest)
  else if c.isDigit then
    let (body, rest) := takeNumber rest
    some (.number, c :: body, rest)
  else if Text.isWordStart c then
    let (body, rest) := takeWord rest
    some (.word, c :: body, rest)
  else
    let (body, rest) := takeSymbol c rest
    some (.symbol, body, rest)

/-- The tokens of a text that starts at `mark`. Every step takes at least one character, so a
bound of the length of the text is enough. -/
def scanFrom : (bound : Nat) → Mark → Text → Except SyntaxError (List Token)
  | 0, _, _ => pure []
  | _, _, [] => pure []
  | bound + 1, mark, c :: rest =>
    if Text.isBlank c then scanFrom bound (mark.after [c]) rest
    else match take? c rest with
      | none => throw ⟨.unterminatedString, mark.position⟩
      | some (cls, text, rest) => do
        let stop := mark.after text
        let more ← scanFrom bound stop rest
        pure (⟨cls, text, mark, stop⟩ :: more)

def scan (text : Text) : Except SyntaxError (List Token) := scanFrom text.length {} text

end Flowchart.Token
