import Flowchart.Symbol.Connector
import Flowchart.Symbol.Scope

/-!
The symbol table: functions, variables and classes from outside, from the connectors and from the
file at hand, and the resolution of expressions against it.
-/
namespace Flowchart

structure FunctionEntry where
  module : Option ModuleName := none
  name : Text
  params : List (Parameter TypeDesc)
  returns : TypeDesc
deriving Repr, Inhabited

structure MethodEntry where
  name : Text
  kind : SymbolKind
  params : List (Parameter TypeDesc)
  returns : TypeDesc
deriving Repr, Inhabited

structure ClassEntry where
  module : Option ModuleName := none
  name : Text
  methods : List MethodEntry
deriving Repr, Inhabited

/-- What names stand for. The qualifiers map the names that modules go by in the file, latest
first. -/
structure SymbolTable where
  functions : List FunctionEntry := []
  vars : List VariableEntry := []
  classes : List ClassEntry := []
  qualifiers : List (Text × ModuleName) := []
deriving Repr, Inhabited

namespace FunctionEntry

def toSymbol (entry : FunctionEntry) : Symbol :=
  { kind := .function, module := entry.module, name := entry.name
    type := some (.function entry.params entry.returns) }

end FunctionEntry

namespace VariableEntry

def toSymbol (entry : VariableEntry) : Symbol :=
  { kind := .var, name := entry.name, type := some entry.type }

end VariableEntry

namespace ConnectorMethod

def toEntry (method : ConnectorMethod) : MethodEntry :=
  ⟨method.name, method.kind, method.params, method.returns⟩

end ConnectorMethod

namespace SymbolTable

def withFunction (table : SymbolTable) (entry : FunctionEntry) : SymbolTable :=
  { table with functions := table.functions ++ [entry] }

def withVariable (table : SymbolTable) (entry : VariableEntry) : SymbolTable :=
  { table with vars := table.vars ++ [entry] }

def withClass (table : SymbolTable) (entry : ClassEntry) : SymbolTable :=
  { table with classes := table.classes ++ [entry] }

def withConnectors (table : SymbolTable) (index : ConnectorIndex) : SymbolTable :=
  { table with
    classes := table.classes ++ index.connectors.map fun connector =>
      ⟨some connector.module, connector.name, connector.methods.map ConnectorMethod.toEntry⟩ }

def module? (table : SymbolTable) (qualifier : Text) : Option ModuleName :=
  table.qualifiers.lookup qualifier

def entryOf (resolve : Scope.Resolver) (function : FunctionDef) : FunctionEntry where
  name := function.name
  params := function.params.map fun param =>
    { name := param.name, type := TypeDesc.read resolve param.typeName }
  returns := match function.returnType with
    | some returnType => TypeDesc.read resolve returnType
    | none => .basic .nil

/-- Adds a function of the file with its parameters and local variables. The first function of a
name stays the one that calls without a qualifier find. -/
def withFunctionDef (resolve : Scope.Resolver) (table : SymbolTable) (function : FunctionDef) :
    SymbolTable :=
  let known := table.functions.any fun entry => entry.module.isNone && entry.name = function.name
  { table with
    vars := table.vars ++
      (Scope.ofParams resolve function ++ Scope.ofBlock resolve function.body)
    functions := if known then table.functions else table.functions ++ [entryOf resolve function] }

def withImport (table : SymbolTable) (imported : Import) : SymbolTable :=
  { table with
    qualifiers := (imported.qualifier, ⟨imported.org, imported.name⟩) :: table.qualifiers }

def withFile (table : SymbolTable) (file : SourceFile) : SymbolTable :=
  let table := file.imports.foldl withImport table
  file.functions.foldl (withFunctionDef table.module?) table

/-- The function that a call finds: one of no module without a qualifier, or one whose module goes
by the qualifier. -/
def function? (table : SymbolTable) (qualifier : Option Text) (name : Text) :
    Option FunctionEntry :=
  table.functions.find? fun entry =>
    entry.name = name &&
      match qualifier, entry.module with
      | none, none => true
      | some qualifier, some module => module.qualifier = qualifier
      | _, _ => false

/-- The later declared of two variables, the second one if they are declared together. -/
def later (best : Option VariableEntry) (entry : VariableEntry) : Option VariableEntry :=
  match best with
  | none => some entry
  | some held => if held.declaredAt ≤ entry.declaredAt then some entry else some held

/-- The variable of a name that is declared last among those visible at a position. -/
def bound? (table : SymbolTable) (name : Text) (p : Position) : Option VariableEntry :=
  (table.vars.filter fun entry => entry.name = name && entry.isVisibleAt p).foldl later none

def class? (table : SymbolTable) (module : Option ModuleName) (name : Text) : Option ClassEntry :=
  table.classes.find? fun entry => entry.name = name && entry.module = module

/-- The method of a variable's class. A resource method is found only by a resource call. -/
def method? (table : SymbolTable) (target name : Text) (isResource : Bool) (p : Position) :
    Option Symbol := do
  let held ← table.bound? target p
  match held.type with
  | .named module className =>
    let owner ← table.class? module className
    let entry ← owner.methods.find? fun entry =>
      entry.name = name && (entry.kind = .resourceMethod) == isResource
    pure
      { kind := entry.kind, module := owner.module, name := entry.name
        type := some (.function entry.params entry.returns) }
  | _ => none

/-- What a call invokes, for a call at a position. -/
def callee? (table : SymbolTable) (p : Position) : Callee → Option Symbol
  | .function qualifier name => do
    let entry ← table.function? qualifier name
    pure { entry.toSymbol with module := entry.module.or (qualifier.bind table.module?) }
  | .remote target method => table.method? target method false p
  | .resource target _ method => table.method? target method true p

/-- The symbol of an expression: what a call invokes, or the variable that it names. -/
def resolve? (table : SymbolTable) : Expr → Option Symbol
  | .check _ _ inner => table.resolve? inner
  | .call extent callee _ => table.callee? extent.range.start callee
  | .other extent =>
    (table.bound? (Text.trim extent.source) extent.range.start).map VariableEntry.toSymbol

/-- The variables visible at a position and all functions. -/
def visible (table : SymbolTable) (p : Position) : List Symbol :=
  (table.vars.filter (·.isVisibleAt p)).map VariableEntry.toSymbol ++
    table.functions.map FunctionEntry.toSymbol

end SymbolTable

/-- What the diagrams need to know of names: the symbol that an expression refers to, which for a call
is what it invokes, and the symbols in scope at a position. A host may answer in any way. -/
structure SemanticModel where
  resolve? : Expr → Option Symbol
  visible : Position → List Symbol

namespace SemanticModel

/-- The answers of a symbol table. -/
def ofTable (table : SymbolTable) : SemanticModel := ⟨table.resolve?, table.visible⟩

instance : Inhabited SemanticModel := ⟨ofTable {}⟩

end SemanticModel

end Flowchart
