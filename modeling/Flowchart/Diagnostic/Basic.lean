import Flowchart.Position.Basic

/-!
Diagnostics: problems reported for a range of a file. A node of a diagram carries remarks, which are
diagnostics without their range.
-/
namespace Flowchart

inductive Severity where
  | error
  | warning
  | info
  | hint
deriving DecidableEq, Repr, Inhabited

/-- A problem reported for a source range. -/
structure Diagnostic where
  severity : Severity
  message : Text
  code : Option Text := none
  range : SourceRange
deriving DecidableEq, Repr, Inhabited

/-- The part of a diagnostic that a node carries. -/
structure Remark where
  severity : Severity
  message : Text
deriving DecidableEq, Repr, Inhabited

namespace Diagnostic

def isError (d : Diagnostic) : Bool := d.severity = .error

def toRemark (d : Diagnostic) : Remark := ⟨d.severity, d.message⟩

end Diagnostic

end Flowchart
