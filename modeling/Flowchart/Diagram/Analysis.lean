import Flowchart.Diagnostic.Attach
import Flowchart.Diagram.Basic
import Flowchart.Diagram.Walker

/-!
The diagram of a function or block: the walk over its statements, and the diagnostics handed to the
nodes.
-/
namespace Flowchart

/-- Diagnostics to show on the nodes, and whether warnings are among those shown. -/
structure Notices where
  diagnostics : List Diagnostic := []
  includeWarnings : Bool := false
deriving Repr, Inhabited

namespace Notices

def attach (notices : Notices) (nodes : List Node) : Except FlowError (List Node) := do
  let report ← Report.ofDiagnostics notices.includeWarnings notices.diagnostics
  pure (report.attach nodes)

end Notices

namespace Diagram

/-- The node for the start of a function, which covers its signature. -/
def startNode (function : FunctionDef) : Except FlowError Node :=
  let params := Properties.ofEntries (function.params.map fun param =>
    (param.name, Property.ofType param.typeName))
  let draft := ((((((({} : Draft).withKind .start).withLabel function.name).withRange
    function.signature.range).withSource function.signature.source).withProperty Key.name
    (.ofIdentifier function.name)).withProperty Key.parameters (.ofParts params))
  (match function.returnType with
    | some returnType => draft.withProperty Key.returnType (.ofType returnType)
    | none => draft).build

/-- The diagram of a function: its start and the nodes of its body. -/
def ofFunction (setting : Setting) (notices : Notices) (function : FunctionDef) :
    Except FlowError Diagram := do
  let first ← startNode function
  let (nodes, hasReturn) ← Walker.walk setting function.body
  let nodes ← notices.attach (first :: nodes)
  pure ⟨function.range.file, some function.name, nodes, hasReturn⟩

def ofBlock (setting : Setting) (notices : Notices) (block : Block) : Except FlowError Diagram := do
  let (nodes, hasReturn) ← Walker.walk setting block
  let nodes ← notices.attach nodes
  pure ⟨block.range.file, none, nodes, hasReturn⟩

end Diagram

end Flowchart
