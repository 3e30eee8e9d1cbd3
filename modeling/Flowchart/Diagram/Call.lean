import Flowchart.Node.Template
import Flowchart.Symbol.Table

/-!
Turning calls into the properties of a node. A call is recognized when the semantic model knows what
it invokes; its arguments become properties under the names of the parameters.
-/
namespace Flowchart

/-- What statements are looked at with: the semantic model, the connectors with special kinds of
nodes, and the module that the file belongs to. -/
structure Setting where
  symbols : SemanticModel := .ofTable {}
  connectors : Option ConnectorIndex := none
  current : Option ModuleName := none
deriving Inhabited

namespace Call

/-- What becomes of an expression that might be a call. -/
inductive Outcome where
  /-- A call, whose kind and properties are in the draft. -/
  | recognized (draft : Draft)
  /-- Not a call of a known function. -/
  | unrecognized
  /-- A call on something that is not a client. -/
  | dropped
deriving Repr, Inhabited

/-- An argument that is given by name, with its place among all arguments. -/
structure NamedArgument where
  place : Nat
  name : Text
  value : Text
deriving DecidableEq, Repr, Inhabited

def positional (args : List Expr) : List Text :=
  args.filterMap fun arg => if arg.namedArgument?.isSome then none else some (Text.trim arg.source)

def named (args : List Expr) : List NamedArgument :=
  args.zipIdx.filterMap fun (arg, place) =>
    arg.namedArgument?.map fun (name, value) => ⟨place, name, value⟩

/-- The key of an argument that no parameter name can serve for. -/
def placeKey (place : Nat) : Text := "arg" ++ Text.ofNat place

/-- The argument for a parameter: the one in its place, or the first one of its name. -/
def argumentFor (positional : List Text) (named : List NamedArgument) (place : Nat)
    (param : Parameter TypeDesc) : Option Text :=
  positional[place]?.or ((named.find? (·.name = param.name)).map (·.value))

/-- Adds the argument for a parameter. One that is left out is added blank if it may be left out,
and a parameter named like a structure key is kept under its place. -/
def withParameter (current : Option ModuleName) (positional : List Text)
    (named : List NamedArgument) (draft : Draft) (item : Parameter TypeDesc × Nat) : Draft :=
  let (param, place) := item
  let value := argumentFor positional named place param
  if Key.callStructure.contains param.name then
    match value with
    | some value => draft.withProperty (placeKey place) (.ofExpression value)
    | none => draft
  else match value with
    | some value => draft.withProperty param.name (Template.parameterProperty current param value)
    | none =>
      if param.defaultable then
        draft.withProperty param.name (Template.parameterProperty current param [])
      else draft

def withExtra (draft : Draft) (item : Text × Nat) : Draft :=
  draft.withProperty (placeKey item.2) (.ofExpression item.1)

def withUnknown (params : List (Parameter TypeDesc)) (draft : Draft) (arg : NamedArgument) :
    Draft :=
  if params.any (·.name = arg.name) then draft
  else if Key.callStructure.contains arg.name then
    draft.withProperty (placeKey arg.place) (.ofExpression (arg.name ++ " = " ++ arg.value))
  else draft.withProperty arg.name (.ofExpression arg.value)

/-- Adds the arguments of a call: one per parameter, then the extra ones, then those of unknown
names. -/
def withArguments (current : Option ModuleName) (symbol : Symbol) (args : List Expr)
    (draft : Draft) : Draft :=
  let positional := positional args
  let named := named args
  let draft := symbol.params.zipIdx.foldl (withParameter current positional named) draft
  let draft := (positional.zipIdx.drop symbol.params.length).foldl withExtra draft
  named.foldl (withUnknown symbol.params) draft

def checkFlag : Expr → Flags
  | .check _ true _ => .checkPanic
  | .check _ false _ => .checked
  | _ => {}

def withFunction (symbol : Symbol) (qualifier : Option Text) (name : Text) (draft : Draft) :
    Draft :=
  let draft := ((draft.withKind .functionCall).withLabel name).withProperty Key.function
    (Property.ofIdentifier name).readOnly
  match qualifier with
  | none => draft
  | some qualifier =>
    let property := (Property.ofIdentifier qualifier).readOnly
    draft.withProperty Key.module (match symbol.module with
      | some module => property.withImport module.toText
      | none => property)

def withRemote (connectors : Option ConnectorIndex) (symbol : Symbol) (target method : Text)
    (draft : Draft) : Draft :=
  let kind := match symbol.module, connectors with
    | some module, some index => (index.nodeKind? module method).getD .remoteCall
    | _, _ => .remoteCall
  ((((draft.withKind kind).withLabel method).withProperty Key.connection
    (.ofIdentifier target)).withProperty Key.method
    (Property.ofIdentifier method).readOnly).withFlag .remote

def withResource (target path method : Text) (draft : Draft) : Draft :=
  (((((draft.withKind .resourceCall).withLabel method).withProperty Key.connection
    (.ofIdentifier target)).withProperty Key.resourcePath (.ofString path)).withProperty Key.method
    (Property.ofIdentifier method).readOnly).withFlag .resource

/-- The kind, label and structure of a call with a known symbol. -/
def withCallee (connectors : Option ConnectorIndex) (symbol : Symbol) (draft : Draft) :
    Callee → Draft
  | .function qualifier name => withFunction symbol qualifier name draft
  | .remote target method => withRemote connectors symbol target method draft
  | .resource target path method => withResource target path method draft

def invokes : Callee → SymbolKind → Bool
  | .function .., kind => kind = .function
  | _, kind => kind.isMethod

/-- What becomes of a call that invokes nothing known: a function call is kept as it is written, a
call on a client is dropped. -/
def missed : Callee → Outcome
  | .function .. => .unrecognized
  | _ => .dropped

/-- Recognizes a call, under any checks around it. Of several checks, the outermost one is kept. -/
def recognize (setting : Setting) (e : Expr) (draft : Draft) : Outcome :=
  match e.unchecked with
  | .call extent callee args =>
    match setting.symbols.resolve? (.call extent callee args) with
    | some symbol =>
      if invokes callee symbol.kind then
        .recognized
          ((withArguments setting.current symbol args
            (withCallee setting.connectors symbol draft callee)).withFlag (checkFlag e))
      else missed callee
    | none => missed callee
  | _ => .unrecognized

end Call

end Flowchart
