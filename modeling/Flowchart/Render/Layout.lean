import Flowchart.Text.Blank
import Flowchart.Text.Lines

/-!
Laying out rendered text: what is written one after the other is kept apart by single blanks, and
the lines of a nested text are shifted to their column. Empty lines stay empty.
-/
namespace Flowchart

/-- Text that is being written. The next word follows without a blank when the text is glued. -/
structure Script where
  text : Text := []
  glued : Bool := false
deriving DecidableEq, Repr, Inhabited

namespace Script

/-- Nothing is written yet, or the last character is a blank or a line feed. -/
def atGap (script : Script) : Bool :=
  script.text.getLast?.all fun c => c == ' ' || c == '\n'

/-- Writes a word, after a blank unless there is a gap or the text is glued. -/
def word (script : Script) (text : Text) : Script :=
  if script.glued || script.atGap then ⟨script.text ++ text, false⟩
  else ⟨script.text ++ (' ' :: text), false⟩

/-- Writes a text that sticks to the word before and to the word after. -/
def join (script : Script) (text : Text) : Script := ⟨script.text ++ text, true⟩

/-- Writes a text that sticks to the word before. -/
def close (script : Script) (text : Text) : Script := ⟨script.text ++ text, false⟩

/-- Writes a name or expression without the blanks around it. -/
def trimmed (script : Script) (text : Text) : Script := script.word (Text.trim text)

def binding (script : Script) (typeName name : Text) : Script :=
  (script.trimmed typeName).trimmed name

end Script

namespace Layout

def pad (column : Nat) : Text := List.replicate column ' '

/-- A line at a column. An empty line gets no blanks. -/
def padded (column : Nat) (line : Text) : Text := if line.isEmpty then [] else pad column ++ line

def indent (column : Nat) (text : Text) : Text :=
  List.intercalate "\n" ((Text.lines text).map (padded column))

/-- The lines of a text, all but the first shifted to a column. -/
def reindent (column : Nat) (text : Text) : Text :=
  match Text.lines text with
  | [] => []
  | first :: rest => first ++ rest.flatMap fun line => '\n' :: padded column line

end Layout

end Flowchart
