import Flowchart.Text.Basic

/-!
Lines of a text. A line feed ends a line and a carriage return right before it belongs to the
ending; an unfinished last line counts only when it has characters.
-/
namespace Flowchart.Text

/-- The finished lines of a text without their line feeds, and what follows the last line feed. -/
def cutLines : Text → List Text × Text
  | [] => ([], [])
  | c :: rest =>
    let (finished, last) := cutLines rest
    if c = '\n' then ([] :: finished, last)
    else match finished with
      | [] => ([], c :: last)
      | line :: more => ((c :: line) :: more, last)

/-- A finished line without the carriage return that belongs to its ending. -/
def dropReturn (line : Text) : Text := (stripEnd? '\r' line).getD line

def lines (text : Text) : List Text :=
  let (finished, last) := cutLines text
  finished.map dropReturn ++ (if last.isEmpty then [] else [last])

end Flowchart.Text
