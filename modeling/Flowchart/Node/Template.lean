import Flowchart.Node.Draft
import Flowchart.Symbol.Connector
import Flowchart.TypeDesc.Format

/-!
Templates: fresh nodes that are not in any document yet, with the properties and empty branches that
their kind needs.
-/
namespace Flowchart.Template

/-- The symbols in scope where a node will stand, and the module it will belong to. -/
structure Context where
  visible : List Symbol := []
  current : Option ModuleName := none
deriving Repr, Inhabited

namespace Context

/-- The names made of a base and a number from one on that could be needed: one more than there are
names in scope. -/
def candidates (context : Context) (base : Text) : List Text :=
  (List.range (context.visible.length + 1)).map fun n => base ++ Text.ofNat (n + 1)

/-- The first name made of a base and a number from one on that is not in scope. -/
def uniqueName (context : Context) (base : Text) : Text :=
  ((context.candidates base).find? fun name => !context.visible.any (·.name = name)).getD base

end Context

/-- The property for an argument, typed after its parameter. -/
def parameterProperty (current : Option ModuleName) (param : Parameter TypeDesc) (value : Text) :
    Property :=
  { valueKind := .expression
    value := value
    typeConstraint := some (TypeDesc.format current param.type)
    placeholder := some param.type.defaultValue
    optional := param.defaultable }

def conditionProperty : Property := (Property.ofExpression []).withPlaceholder "true"

def errorProperty : Property := (Property.ofExpression []).withPlaceholder "error(\"\")"

def handlerProperties (context : Context) : Properties :=
  Properties.ofEntries
    [ (Key.errorType, .ofType "error"),
      (Key.errorVariable, .ofIdentifier (context.uniqueName "err")) ]

/-- A fresh node of a kind. Calls, blocks and the start of a function have no template. -/
def ofKind (context : Context) (kind : NodeKind) : Except FlowError Node := do
  let draft := ({} : Draft).withKind kind
  match kind with
  | .cond =>
    ((draft.withProperty Key.condition conditionProperty).withBranch
      (← Node.branchOf BranchLabel.whenTrue [] [])).build
  | .loop =>
    ((draft.withProperty Key.condition conditionProperty).withBranch
      (← Node.branchOf BranchLabel.body [] [])).build
  | .each =>
    ((((draft.withProperty Key.type (.ofType "var")).withProperty Key.name
      (.ofIdentifier (context.uniqueName "item"))).withProperty Key.collection
      (.ofExpression [])).withBranch (← Node.branchOf BranchLabel.body [] [])).build
  | .errorHandler =>
    ((draft.withBranch (← Node.branchOf BranchLabel.body [] [])).withBranch
      (← Node.branchOf BranchLabel.onFail (handlerProperties context) [])).build
  | .lock => (draft.withBranch (← Node.branchOf BranchLabel.body [] [])).build
  | .varDecl =>
    (((draft.withProperty Key.type
      (.ofType (TypeDesc.format context.current (.basic .int)))).withProperty Key.name
      (.ofIdentifier (context.uniqueName "var"))).withProperty Key.value
      (.ofExpression (TypeDesc.basic .int).defaultValue)).build
  | .assign =>
    ((draft.withProperty Key.name (.ofIdentifier [])).withProperty Key.value
      (.ofExpression [])).build
  | .ret =>
    (draft.withProperty Key.expression
      { Property.ofExpression [] with optional := true }).asReturning.build
  | .stop => draft.asReturning.build
  | .panic => (draft.withProperty Key.expression errorProperty).build
  | .fail => (draft.withProperty Key.expression errorProperty).build
  | .expression => (draft.withProperty Key.expression (.ofExpression [])).build
  | .comment => (draft.withProperty Key.comment (.ofString [])).build
  | .exitLoop => draft.build
  | .nextRound => draft.build
  | .start => throw (.noTemplate kind)
  | .block => throw (.noTemplate kind)
  | .functionCall => throw (.noTemplate kind)
  | .remoteCall => throw (.noTemplate kind)
  | .resourceCall => throw (.noTemplate kind)
  | .httpGet => throw (.noTemplate kind)
  | .httpPost => throw (.noTemplate kind)

/-- The start of a call of a function. The module is named unless it is the current one. -/
def functionDraft (context : Context) (symbol : Symbol) : Draft :=
  let draft := (({} : Draft).withKind .functionCall).withProperty Key.function
    (Property.ofIdentifier symbol.name).readOnly
  match symbol.module with
  | some module =>
    if some module = context.current then draft
    else draft.withProperty Key.module
      ((Property.ofIdentifier module.qualifier).readOnly.withImport module.toText)
  | none => draft

def methodKind (index : Option ConnectorIndex) (symbol : Symbol) : NodeKind :=
  if symbol.kind = .resourceMethod then .resourceCall
  else match symbol.module, index with
    | some module, some index => (index.nodeKind? module symbol.name).getD .remoteCall
    | _, _ => .remoteCall

/-- The start of a call of a method on a connection. -/
def methodDraft (index : Option ConnectorIndex) (symbol : Symbol) (connection : Text) : Draft :=
  let kind := methodKind index symbol
  let draft := ((({} : Draft).withKind kind).withProperty Key.connection
    (.ofIdentifier connection)).withProperty Key.method (Property.ofIdentifier symbol.name).readOnly
  if kind = .resourceCall then
    (draft.withProperty Key.resourcePath (.ofString "/")).withFlag .resource
  else draft.withFlag .remote

/-- Adds a variable for the result of a call, unless there is none. A call that can fail is
checked. -/
def withResult (context : Context) (symbol : Symbol) (draft : Draft) : Draft :=
  match symbol.returns? with
  | none => draft
  | some type =>
    if type.isNil then draft
    else
      let draft := (draft.withProperty Key.type
        (.ofType (TypeDesc.formatIgnoringErrors context.current type))).withProperty Key.name
        (.ofIdentifier (context.uniqueName "var"))
      if type.canFail then draft.withFlag .checked else draft

def ofCall (context : Context) (index : Option ConnectorIndex) (symbol : Symbol)
    (connection : Option Text) : Except FlowError Node := do
  let draft ←
    if symbol.kind = .function then pure (functionDraft context symbol)
    else if symbol.kind.isMethod then
      match connection with
      | some connection => pure (methodDraft index symbol connection)
      | none => throw (.incompleteNode Key.connection)
    else throw (.noTemplate .functionCall)
  let draft := symbol.params.foldl
    (fun draft param =>
      draft.withProperty param.name (parameterProperty context.current param []))
    (draft.withLabel symbol.name)
  (withResult context symbol draft).build

end Flowchart.Template
