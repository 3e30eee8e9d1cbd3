import Flowchart.Node.Kind
import Flowchart.Syntax.Error

/-!
What can go wrong when diagrams are built, rendered or applied to a document. Each error has a
cause of its own and one wording.
-/
namespace Flowchart

/-- Why a node cannot be written as source text. -/
inductive RenderError where
  | missingProperty (kind : NodeKind) (property : Text)
  | unsupportedKind (kind : NodeKind)
  | missingInsertPosition (kind : NodeKind)
deriving DecidableEq, Repr, Inhabited

/-- Why edits cannot be applied to a text. The numbers count the edits as they are given. -/
inductive EditFault where
  | outside (span : Span)
  | reversed (span : Span)
  | overlap (first second : Nat)
deriving DecidableEq, Repr, Inhabited

/-- Why a diagram cannot be built, or a node not be applied to a document. -/
inductive FlowError where
  | incompleteNode (field : Text)
  | conflictingShape (kind : NodeKind)
  | noTemplate (kind : NodeKind)
  | stackUnderflow
  | unbalancedStack (depth : Nat)
  | unsortedDiagnostics (previous current : Position)
  | functionNotFound (name : Text)
  | invalidEdit (fault : EditFault)
  | malformedSource (error : SyntaxError)
  | unrendered (error : RenderError)
deriving DecidableEq, Repr, Inhabited

namespace RenderError

def message : RenderError → Text
  | missingProperty kind property =>
    "Node '" ++ kind.name ++ "' is missing the required property '" ++ property ++ "'"
  | unsupportedKind kind => "Node kind '" ++ kind.name ++ "' cannot be generated on its own"
  | missingInsertPosition kind =>
    "Node '" ++ kind.name ++ "' has no source range and no insert position was supplied"

end RenderError

namespace EditFault

def message : EditFault → Text
  | outside span => "range " ++ span.toText ++ " lies outside the document"
  | reversed span =>
    "edit ends at " ++ span.stop.toText ++ " before it starts at " ++ span.start.toText
  | overlap first second =>
    "edits " ++ Text.ofNat first ++ " and " ++ Text.ofNat second ++ " overlap"

end EditFault

namespace FlowError

def message : FlowError → Text
  | incompleteNode field => "Node builder was sealed without a '" ++ field ++ "'"
  | conflictingShape kind => "Node '" ++ kind.name ++ "' was given both children and branches"
  | noTemplate kind => "No template exists for node kind '" ++ kind.name ++ "'"
  | stackUnderflow =>
    "Builder stack underflow: stepped out of a block that was never entered"
  | unbalancedStack depth =>
    "Builder stack unbalanced: " ++ Text.ofNat depth ++ " block(s) entered but never left"
  | unsortedDiagnostics previous current =>
    "Diagnostics are not sorted: a diagnostic at " ++ current.toText ++ " follows one at " ++
      previous.toText
  | functionNotFound name => "Function '" ++ name ++ "' was not found in the document"
  | invalidEdit fault => "Invalid text edit: " ++ fault.message
  | malformedSource error => error.message
  | unrendered error => error.message

end FlowError

end Flowchart
