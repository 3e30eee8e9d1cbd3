import Flowchart.Edit.Basic
import Flowchart.Syntax.Cursor

/-!
Documents under edits. A document takes all edits of a list or none of them, and its file name
stays.
-/
namespace Flowchart.Source

def withEdits (source : Source) (edits : List TextEdit) : Except EditFault Source := do
  let text ← TextEdit.apply source.text edits
  pure { source with text := text }

def applyEdits (edits : List TextEdit) : EStateM EditFault Source Unit := do
  match (← get).withEdits edits with
  | .ok edited => set edited
  | .error fault => throw fault

end Flowchart.Source
