import Flowchart.Diagnostic.Basic
import Flowchart.Json.Record

/-!
The JSON forms of positions, spans, source ranges and diagnostics.
-/
namespace Flowchart

namespace Json

def field (name : Text) (value : Json) : List (Text × Json) := [(name, value)]

/-- A field that is written only when there is a value. -/
def fieldOf {α : Type} (name : Text) (write : α → Json) : Option α → List (Text × Json)
  | none => []
  | some value => [(name, write value)]

/-- A field that is written only when the condition holds. -/
def fieldIf (condition : Bool) (name : Text) (value : Json) : List (Text × Json) :=
  if condition then [(name, value)] else []

end Json

namespace Position

def toJson (p : Position) : Json := .object [("line", .ofNat p.line), ("offset", .ofNat p.column)]

def ofJson? (json : Json) : Option Position := do
  let record ← Json.record? ["line", "offset"] json
  pure ⟨← record.required "line" Json.nat?, ← record.required "offset" Json.nat?⟩

end Position

namespace Span

def toJson (span : Span) : Json :=
  .object [("start", span.start.toJson), ("end", span.stop.toJson)]

def ofJson? (json : Json) : Option Span := do
  let record ← Json.record? ["start", "end"] json
  pure ⟨← record.required "start" Position.ofJson?, ← record.required "end" Position.ofJson?⟩

end Span

namespace SourceRange

def toJson (range : SourceRange) : Json :=
  .object
    [ ("file", .string range.file),
      ("startLine", .ofNat range.start.line), ("startCol", .ofNat range.start.column),
      ("endLine", .ofNat range.stop.line), ("endCol", .ofNat range.stop.column) ]

def ofJson? (json : Json) : Option SourceRange := do
  let record ← Json.record? ["file", "startLine", "startCol", "endLine", "endCol"] json
  let file ← record.required "file" Json.text?
  let startLine ← record.required "startLine" Json.nat?
  let startCol ← record.required "startCol" Json.nat?
  let endLine ← record.required "endLine" Json.nat?
  let endCol ← record.required "endCol" Json.nat?
  pure ⟨file, ⟨startLine, startCol⟩, ⟨endLine, endCol⟩⟩

end SourceRange

namespace Severity

def name : Severity → Text
  | error => "ERROR"
  | warning => "WARNING"
  | info => "INFO"
  | hint => "HINT"

def toJson (severity : Severity) : Json := .string severity.name

def ofJson? : Json → Option Severity :=
  Json.name? ([error, warning, info, hint].map fun severity => (severity.name, severity))

end Severity

namespace Diagnostic

def toJson (d : Diagnostic) : Json :=
  .object
    (Json.field "severity" d.severity.toJson ++ Json.field "message" (.string d.message) ++
      Json.fieldOf "code" .string d.code ++ Json.field "range" d.range.toJson)

def ofJson? (json : Json) : Option Diagnostic := do
  let record ← Json.record? ["severity", "message", "code", "range"] json
  let severity ← record.required "severity" Severity.ofJson?
  let message ← record.required "message" Json.text?
  let code ← record.optional "code" none (Json.nullable Json.text?)
  let range ← record.required "range" SourceRange.ofJson?
  pure ⟨severity, message, code, range⟩

end Diagnostic

namespace Remark

def toJson (remark : Remark) : Json :=
  .object [("severity", remark.severity.toJson), ("message", .string remark.message)]

def ofJson? (json : Json) : Option Remark := do
  let record ← Json.record? ["severity", "message"] json
  pure ⟨← record.required "severity" Severity.ofJson?, ← record.required "message" Json.text?⟩

end Remark

end Flowchart
