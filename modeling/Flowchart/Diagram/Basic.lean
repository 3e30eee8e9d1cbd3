import Flowchart.Node.Basic

/-!
Diagrams: the nodes of one function or block of a file.
-/
namespace Flowchart

/-- The nodes of a function, or of a bare block. -/
structure Diagram where
  file : Text
  function : Option Text := none
  nodes : List Node
  hasReturn : Bool
deriving Repr, Inhabited

namespace Diagram

def body (diagram : Diagram) : List Node :=
  match diagram.nodes with
  | [] => []
  | first :: rest => if first.kind = .start then rest else first :: rest

def find? (diagram : Diagram) (id : Text) : Option Node :=
  (Node.flatten diagram.nodes).find? (·.id = id)

end Diagram

end Flowchart
