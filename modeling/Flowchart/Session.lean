import Flowchart.Diagram.Analysis
import Flowchart.Edit.Document
import Flowchart.Edit.Generate
import Flowchart.Reconcile
import Flowchart.Syntax.FileReader

/-!
Sessions: a document and the diagrams of its functions, kept in step. Applying a node writes it
into the document and gives the new diagram; when anything fails, the document stays as it was.
-/
namespace Flowchart

/-- The outcome of applying a node: the edits that were made and the diagram after them. -/
structure SyncOutcome where
  edits : SourceEdits
  diagram : Diagram
deriving Repr, Inhabited

/-- A document and what its functions are looked at with. The diagnostics are those of a host and
hold for the document as it is. -/
structure Session where
  source : Source
  symbols : SymbolTable := {}
  connectors : ConnectorIndex := .standard
  current : Option ModuleName := none
  diagnostics : List Diagnostic := []
deriving Repr, Inhabited

namespace Session

/-- All symbols for a file: those from outside, the connectors and the file itself. -/
def table (session : Session) (file : SourceFile) : SymbolTable :=
  (session.symbols.withConnectors session.connectors).withFile file

/-- The diagram of a function, with the problems of the file and the given ones on its nodes. -/
def analyze (session : Session) (file : SourceFile) (function : Text) (extra : List Diagnostic) :
    Except FlowError Diagram :=
  match file.function? function with
  | none => .error (.functionNotFound function)
  | some definition =>
    let diagnostics := (file.diagnostics ++ extra).mergeSort fun a b =>
      a.range.start ≤ b.range.start
    Diagram.ofFunction
      { symbols := .ofTable (session.table file), connectors := some session.connectors
        current := session.current }
      { diagnostics := diagnostics } definition

def read (source : Source) : Except FlowError SourceFile :=
  match SourceFile.read source with
  | .ok file => .ok file
  | .error error => .error (.malformedSource error)

def diagram (session : Session) (function : Text) : Except FlowError Diagram := do
  let file ← read session.source
  session.analyze file function session.diagnostics

def lineIndent (text : Text) (line : Nat) : Nat :=
  match (Text.lines text)[line]? with
  | none => 0
  | some line => Text.byteLength line - Text.byteLength (Text.trimStart line)

/-- Only blanks stand between a position and an opening brace before it. -/
def followsOpening (text : Text) (p : Position) : Bool :=
  match Text.offsetAt? text p with
  | none => false
  | some offset => (Text.trimEnd (text.takeBytes offset)).getLast? = some '\x7b'

/-- The range of the first statement that ends at a position. -/
def sibling? (nodes : List Node) (p : Position) : Option SourceRange :=
  ((Node.flatten nodes).filter fun node => node.kind ≠ .block).filterMap (·.range) |>.find?
    fun range => range.stop = p

/-- Where a new node goes: on a line of its own after the statement that ends at the position, or
one step further in than the line of the position. -/
def placement (session : Session) (file : SourceFile) (before : Diagram)
    (insertAt : Option Position) : Placement :=
  let place : Placement :=
    { path := session.source.file, imported := file.importNames, current := session.current }
  match insertAt with
  | none => place
  | some p =>
    match sibling? before.nodes p with
    | some range =>
      { place with insertAt := some p, afterSibling := true, column := some range.start.column }
    | none =>
      { place with
        insertAt := some p
        afterOpening := followsOpening session.source.text p
        column := some (lineIndent session.source.text p.line + Placement.defaultWidth) }

/-- The function to show after a node was applied: the start of a function may give it a new name.
-/
def functionAfter (function : Text) (node : Node) : Text :=
  if node.kind = .start then (node.value? Key.name).getD function else function

/-- Writes a node into the document. A node that is not in the document is inserted at the
position. The session changes only at the end, when all that can fail is done. -/
def apply (function : Text) (node : Node) (insertAt : Option Position) :
    EStateM FlowError Session SyncOutcome := do
  let session ← get
  let file ← MonadExcept.ofExcept (read session.source)
  let before ← MonadExcept.ofExcept (session.analyze file function session.diagnostics)
  let place := session.placement file before insertAt
  let edits ← MonadExcept.ofExcept
    ((place.edits Placement.defaultWidth node).mapError FlowError.unrendered)
  let source ← MonadExcept.ofExcept
    ((session.source.withEdits (edits.forFile session.source.file)).mapError FlowError.invalidEdit)
  let edited ← MonadExcept.ofExcept (read source)
  let after ← MonadExcept.ofExcept (session.analyze edited (functionAfter function node) [])
  let (_, nodes) := (Reconciler.ofDiagnostics edited.diagnostics).reconcile before.nodes after.nodes
  modify fun session => { session with source := source }
  modify fun session => { session with diagnostics := [] }
  pure ⟨edits, { after with nodes := nodes }⟩

end Session

end Flowchart
