import Flowchart.Edit.Basic
import Flowchart.ModuleName
import Flowchart.Render.Statement

/-!
Turning a node into edits of a document. A node that is in the document replaces its own range;
another one is inserted where the caller says. Modules that the node needs and the document lacks
are imported at the top.
-/
namespace Flowchart

/-- Where and how a node is written: the file, the position for a node that is not in the
document, and whether that position follows a statement or an opening brace, so that the node goes
on a line of its own. -/
structure Placement where
  path : Text
  insertAt : Option Position := none
  afterSibling : Bool := false
  afterOpening : Bool := false
  column : Option Nat := none
  imported : List Text := []
  current : Option ModuleName := none
deriving Repr, Inhabited

namespace Placement

def defaultWidth : Nat := 4

def addNew (held : List Text) (modules : List Text) : List Text :=
  modules.foldl (fun held module => if held.contains module then held else held ++ [module]) held

/-- The modules named by the properties of a node and of those below it, each once. -/
def wantedImports (node : Node) : List Text :=
  addNew [] (node.subtree.flatMap fun node => node.properties.flatMap fun entry => entry.2.imports)

/-- The module must be imported: it is not part of the language, not the current one and not
imported yet. -/
def needsImport (place : Placement) (module : Text) : Bool :=
  match ModuleName.ofText? module with
  | none => false
  | some name =>
    !name.isLangLib && place.current ≠ some name && !place.imported.contains module

def missingImports (place : Placement) (node : Node) : List Text :=
  (wantedImports node).filter place.needsImport

/-- The edit that writes the rendered text of a node. -/
def editFor (place : Placement) (node : Node) (text : Text) : Except RenderError TextEdit :=
  match node.range with
  | some range =>
    .ok ⟨range.span, Layout.reindent (place.column.getD range.start.column) text⟩
  | none =>
    match place.insertAt with
    | none => .error (.missingInsertPosition node.kind)
    | some p =>
      let column := place.column.getD p.column
      let body := Layout.reindent column text
      .ok (.insertion p
        (if place.afterSibling || place.afterOpening then '\n' :: (Layout.pad column ++ body)
        else body))

def importEdit (modules : List Text) : List TextEdit :=
  if modules.isEmpty then []
  else [.insertion {} (modules.flatMap fun module => "import " ++ module ++ ";\n")]

def edits (place : Placement) (width : Nat) (node : Node) : Except RenderError SourceEdits := do
  let text ← Render.render width node
  let edit ← place.editFor node text
  let imports := place.missingImports node
  pure ⟨[(place.path, importEdit imports ++ [edit])], imports⟩

/-- Writes nodes over themselves, each where it stands; the edits of those that can be rendered
are made together. -/
def writeAll (place : Placement) (width : Nat) (nodes : List Node) (text : Text) :
    List (Except RenderError SourceEdits) × Except EditFault Text :=
  let results := nodes.map (place.edits width)
  let edits := results.flatMap fun result =>
    match result with
    | .ok edits => edits.forFile place.path
    | .error _ => []
  (results, TextEdit.apply text edits)

end Placement

end Flowchart
