import Flowchart.Syntax.Tree
import Flowchart.TypeDesc.Read

/-!
Variables and where they can be seen. A declaration is visible from its position to the end of the
block that holds it; loop variables and bound errors belong to the block they are bound for.
-/
namespace Flowchart

/-- A variable with the position of its declaration and the range it is limited to, if any. -/
structure VariableEntry where
  name : Text
  type : TypeDesc
  declaredAt : Position := {}
  scope : Option SourceRange := none
deriving Repr, Inhabited

namespace VariableEntry

/-- The variable is declared before the position, and its scope takes it in. -/
def isVisibleAt (entry : VariableEntry) (p : Position) : Bool :=
  decide (entry.declaredAt ≤ p) && entry.scope.all (·.containsPosition p)

end VariableEntry

namespace Scope

/-- How type names of a file are read: by the modules that its qualifiers stand for. -/
abbrev Resolver := Text → Option ModuleName

def declared (resolve : Resolver) (typeName name : Text) (p : Position) (scope : SourceRange) :
    VariableEntry :=
  ⟨name, TypeDesc.read resolve typeName, p, some scope⟩

mutual

/-- The variables that a statement of a block with the range `scope` declares. -/
def ofStatement (resolve : Resolver) (scope : SourceRange) : Statement → List VariableEntry
  | .varDecl extent _ typeName name _ =>
    [declared resolve typeName name extent.range.start scope]
  | .each _ typeName name _ body handler =>
    declared resolve typeName name body.range.start body.range ::
      (ofBlock resolve body ++ ofHandler resolve handler)
  | .cond _ _ body otherwise => ofBlock resolve body ++ ofOtherwise resolve otherwise
  | .loop _ _ body handler => ofBlock resolve body ++ ofHandler resolve handler
  | .attempt _ body handler => ofBlock resolve body ++ ofHandler resolve handler
  | .lock _ body handler => ofBlock resolve body ++ ofHandler resolve handler
  | _ => []

def ofOtherwise (resolve : Resolver) : Otherwise → List VariableEntry
  | .nothing => []
  | .cond _ _ body otherwise => ofBlock resolve body ++ ofOtherwise resolve otherwise
  | .block body => ofBlock resolve body

def ofHandler (resolve : Resolver) : Handler → List VariableEntry
  | .nothing => []
  | .onFail none body => ofBlock resolve body
  | .onFail (some (typeName, name)) body =>
    declared resolve typeName name body.range.start body.range :: ofBlock resolve body

/-- The variables declared in a block, in the order of the text. -/
def ofBlock (resolve : Resolver) : Block → List VariableEntry
  | .mk extent statements => ofStatements resolve extent.range statements

def ofStatements (resolve : Resolver) (scope : SourceRange) : List Statement → List VariableEntry
  | [] => []
  | statement :: rest =>
    ofStatement resolve scope statement ++ ofStatements resolve scope rest

end

/-- The parameters of a function, which are visible in all of it. -/
def ofParams (resolve : Resolver) (function : FunctionDef) : List VariableEntry :=
  function.params.map fun param =>
    declared resolve param.typeName param.name param.range.start function.range

end Scope

end Flowchart
