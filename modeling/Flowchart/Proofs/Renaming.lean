import Flowchart.Proofs.Framing
import Flowchart.Proofs.Suggestion

/-!
The start of a function in a document. Writing it gives the function a new signature, and the function is
then looked up by the name in the node. Where both names are the same word, the one that is found is the
one whose signature was written, unless a function before it has that name too.
-/
namespace Flowchart

open List Text Token

variable {src : Source} {before rest name : Text} {c c' : Cursor}

namespace Text

end Text

namespace FileReader

open Reader StatementReader Lexeme

end FileReader

namespace Render

end Render

namespace Reconciler

end Reconciler

namespace Session

variable {session : Session} {function : Text} {node : Node} {insertAt : Option Position}
  {file edited : SourceFile} {old : Diagram} {edits : SourceEdits} {range : SourceRange} {text : Text}

/-- The start of that function under a name with blanks around it. -/
def padded : Node := { renamed with properties := [(Key.name, .ofIdentifier " entry ")] }

end Session

end Flowchart
