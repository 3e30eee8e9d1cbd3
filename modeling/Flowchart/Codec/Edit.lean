import Flowchart.Codec.Node
import Flowchart.Session

/-!
The JSON forms of text edits and of the outcome of applying a node. The edits of files are written
in the order of their paths.
-/
namespace Flowchart

namespace TextEdit

def toJson (edit : TextEdit) : Json :=
  .object [("range", edit.span.toJson), ("newText", .string edit.newText)]

def ofJson? (json : Json) : Option TextEdit := do
  let record ← Json.record? ["range", "newText"] json
  pure ⟨← record.required "range" Span.ofJson?, ← record.required "newText" Json.text?⟩

end TextEdit

namespace SourceEdits

def toJson (edits : SourceEdits) : Json :=
  .object
    (("edits", .object (edits.files.map fun file => (file.1, .ofList TextEdit.toJson file.2))) ::
      Json.fieldIf (!edits.imports.isEmpty) "imports" (.ofList .string edits.imports))

def filesOfJson? : Json → Option (List (Text × List TextEdit))
  | .object fields => do
    let files ← fields.mapM fun field =>
      (Json.list? TextEdit.ofJson? field.2).map fun edits => (field.1, edits)
    pure (files.foldl (fun held file => insertFile file.1 file.2 held) [])
  | _ => none

def ofJson? (json : Json) : Option SourceEdits := do
  let record ← Json.record? ["edits", "imports"] json
  let files ← record.required "edits" filesOfJson?
  let imports ← record.optional "imports" [] (Json.list? Json.text?)
  pure ⟨files, imports⟩

end SourceEdits

namespace SyncOutcome

def toJson (outcome : SyncOutcome) : Json :=
  .object [("edits", outcome.edits.toJson), ("model", outcome.diagram.toJson)]

def ofJson? (json : Json) : Option SyncOutcome := do
  let record ← Json.record? ["edits", "model"] json
  pure ⟨← record.required "edits" SourceEdits.ofJson?, ← record.required "model" Diagram.ofJson?⟩

end SyncOutcome

end Flowchart
