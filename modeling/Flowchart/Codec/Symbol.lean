import Flowchart.Codec.TypeDesc
import Flowchart.Symbol.Table

/-!
The JSON forms of symbols, symbol tables and connectors. All fields are written, also those
without a value.
-/
namespace Flowchart

namespace NodeKind

def toJson (kind : NodeKind) : Json := .string kind.name

def ofJson? : Json → Option NodeKind := Json.name? (all.map fun kind => (kind.name, kind))

end NodeKind

namespace SymbolKind

def all : List SymbolKind :=
  [var, parameter, function, method, remoteMethod, resourceMethod, classDef, typeDef, constant]

def name : SymbolKind → Text
  | var => "VARIABLE"
  | parameter => "PARAMETER"
  | function => "FUNCTION"
  | method => "METHOD"
  | remoteMethod => "REMOTE_METHOD"
  | resourceMethod => "RESOURCE_METHOD"
  | classDef => "CLASS"
  | typeDef => "TYPE"
  | constant => "CONSTANT"

def toJson (kind : SymbolKind) : Json := .string kind.name

def ofJson? : Json → Option SymbolKind := Json.name? (all.map fun kind => (kind.name, kind))

end SymbolKind

namespace Symbol

def toJson (symbol : Symbol) : Json :=
  .object
    [ ("kind", symbol.kind.toJson), ("module", .ofOption ModuleName.toJson symbol.module),
      ("name", .string symbol.name), ("typeSignature", .ofOption TypeDesc.toJson symbol.type) ]

def ofJson? (library : Json.Library) (json : Json) : Option Symbol := do
  let record ← Json.record? ["kind", "module", "name", "typeSignature"] json
  let kind ← record.required "kind" SymbolKind.ofJson?
  let module ← record.optional "module" none (Json.nullable ModuleName.ofJson?)
  let name ← record.required "name" Json.text?
  let type ← record.optional "typeSignature" none (Json.nullable (TypeDesc.ofJson? library))
  pure ⟨kind, module, name, type⟩

end Symbol

namespace FunctionEntry

def toJson (entry : FunctionEntry) : Json :=
  .object
    [ ("module", .ofOption ModuleName.toJson entry.module), ("name", .string entry.name),
      ("params", .ofList Parameter.toJson entry.params), ("returns", entry.returns.toJson) ]

def ofJson? (library : Json.Library) (json : Json) : Option FunctionEntry := do
  let record ← Json.record? ["module", "name", "params", "returns"] json
  let module ← record.optional "module" none (Json.nullable ModuleName.ofJson?)
  let name ← record.required "name" Json.text?
  let params ← record.required "params" (Json.list? (Parameter.ofJson? library))
  let returns ← record.required "returns" (TypeDesc.ofJson? library)
  pure ⟨module, name, params, returns⟩

end FunctionEntry

namespace VariableEntry

def toJson (entry : VariableEntry) : Json :=
  .object
    [ ("name", .string entry.name), ("type", entry.type.toJson),
      ("declaredAt", entry.declaredAt.toJson),
      ("scope", .ofOption SourceRange.toJson entry.scope) ]

def ofJson? (library : Json.Library) (json : Json) : Option VariableEntry := do
  let record ← Json.record? ["name", "type", "declaredAt", "scope"] json
  let name ← record.required "name" Json.text?
  let type ← record.required "type" (TypeDesc.ofJson? library)
  let declaredAt ← record.optional "declaredAt" {} Position.ofJson?
  let scope ← record.optional "scope" none (Json.nullable SourceRange.ofJson?)
  pure ⟨name, type, declaredAt, scope⟩

end VariableEntry

namespace MethodEntry

def toJson (entry : MethodEntry) : Json :=
  .object
    [ ("name", .string entry.name), ("kind", entry.kind.toJson),
      ("params", .ofList Parameter.toJson entry.params), ("returns", entry.returns.toJson) ]

def ofJson? (library : Json.Library) (json : Json) : Option MethodEntry := do
  let record ← Json.record? ["name", "kind", "params", "returns"] json
  let name ← record.required "name" Json.text?
  let kind ← record.required "kind" SymbolKind.ofJson?
  let params ← record.required "params" (Json.list? (Parameter.ofJson? library))
  let returns ← record.required "returns" (TypeDesc.ofJson? library)
  pure ⟨name, kind, params, returns⟩

end MethodEntry

namespace ClassEntry

def toJson (entry : ClassEntry) : Json :=
  .object
    [ ("module", .ofOption ModuleName.toJson entry.module), ("name", .string entry.name),
      ("methods", .ofList MethodEntry.toJson entry.methods) ]

def ofJson? (library : Json.Library) (json : Json) : Option ClassEntry := do
  let record ← Json.record? ["module", "name", "methods"] json
  let module ← record.optional "module" none (Json.nullable ModuleName.ofJson?)
  let name ← record.required "name" Json.text?
  let methods ← record.required "methods" (Json.list? (MethodEntry.ofJson? library))
  pure ⟨module, name, methods⟩

end ClassEntry

namespace SymbolTable

def toJson (table : SymbolTable) : Json :=
  .object
    [ ("functions", .ofList FunctionEntry.toJson table.functions),
      ("variables", .ofList VariableEntry.toJson table.vars),
      ("classes", .ofList ClassEntry.toJson table.classes) ]

def ofJson? (library : Json.Library) (json : Json) : Option SymbolTable := do
  let record ← Json.record? ["functions", "variables", "classes"] json
  let functions ← record.optional "functions" [] (Json.list? (FunctionEntry.ofJson? library))
  let vars ← record.optional "variables" [] (Json.list? (VariableEntry.ofJson? library))
  let classes ← record.optional "classes" [] (Json.list? (ClassEntry.ofJson? library))
  pure { functions := functions, vars := vars, classes := classes }

end SymbolTable

namespace ConnectorMethod

def toJson (method : ConnectorMethod) : Json :=
  .object
    [ ("name", .string method.name), ("kind", method.kind.toJson),
      ("nodeKind", .ofOption NodeKind.toJson method.nodeKind),
      ("params", .ofList Parameter.toJson method.params), ("returns", method.returns.toJson) ]

def ofJson? (library : Json.Library) (json : Json) : Option ConnectorMethod := do
  let record ← Json.record? ["name", "kind", "nodeKind", "params", "returns"] json
  let name ← record.required "name" Json.text?
  let kind ← record.required "kind" SymbolKind.ofJson?
  let nodeKind ← record.optional "nodeKind" none (Json.nullable NodeKind.ofJson?)
  let params ← record.required "params" (Json.list? (Parameter.ofJson? library))
  let returns ← record.required "returns" (TypeDesc.ofJson? library)
  pure ⟨name, kind, nodeKind, params, returns⟩

end ConnectorMethod

namespace Connector

def toJson (connector : Connector) : Json :=
  .object
    [ ("module", connector.module.toJson), ("name", .string connector.name),
      ("methods", .ofList ConnectorMethod.toJson connector.methods) ]

def ofJson? (library : Json.Library) (json : Json) : Option Connector := do
  let record ← Json.record? ["module", "name", "methods"] json
  let module ← record.required "module" ModuleName.ofJson?
  let name ← record.required "name" Json.text?
  let methods ← record.required "methods" (Json.list? (ConnectorMethod.ofJson? library))
  pure ⟨module, name, methods⟩

end Connector

namespace ConnectorIndex

def toJson (index : ConnectorIndex) : Json :=
  .object [("connectors", .ofList Connector.toJson index.connectors)]

def ofJson? (library : Json.Library) (json : Json) : Option ConnectorIndex := do
  let record ← Json.record? ["connectors"] json
  pure ⟨← record.required "connectors" (Json.list? (Connector.ofJson? library))⟩

end ConnectorIndex

end Flowchart
