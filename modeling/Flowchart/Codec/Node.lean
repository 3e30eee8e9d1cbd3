import Flowchart.Codec.Symbol
import Flowchart.Diagram.Basic

/-!
The JSON forms of properties, nodes and diagrams. Properties are written as an object in the order
of insertion; a key that is read twice keeps its first place and its last value.
-/
namespace Flowchart

namespace ValueKind

def all : List ValueKind := [identifier, expression, type, string, flag, repeatable, view]

def name : ValueKind → Text
  | identifier => "IDENTIFIER"
  | expression => "EXPRESSION"
  | type => "TYPE"
  | string => "STRING"
  | flag => "FLAG"
  | repeatable => "REPEATABLE"
  | view => "VIEW"

def toJson (kind : ValueKind) : Json := .string kind.name

def ofJson? : Json → Option ValueKind := Json.name? (all.map fun kind => (kind.name, kind))

end ValueKind

namespace Property

mutual

def toJson : Property → Json
  | ⟨valueKind, value, typeConstraint, editable, optional, placeholder, properties, imports⟩ =>
    .object
      (Json.field "valueKind" valueKind.toJson ++ Json.field "value" (.string value) ++
        Json.fieldOf "typeConstraint" .string typeConstraint ++
        Json.field "editable" (.bool editable) ++
        Json.fieldIf optional "optional" (.bool true) ++
        Json.fieldOf "placeholder" .string placeholder ++
        Json.fieldIf (!properties.isEmpty) "properties" (.object (toJsonEntries properties)) ++
        Json.fieldIf (!imports.isEmpty) "imports" (.ofList .string imports))

def toJsonEntries : List (Text × Property) → List (Text × Json)
  | [] => []
  | (key, property) :: rest => (key, toJson property) :: toJsonEntries rest

end

def entriesOfJson? (read : Json → Option Property) : Json → Option Properties
  | .object fields => do
    let entries ← fields.mapM fun field => (read field.2).map fun property => (field.1, property)
    pure (Properties.ofEntries entries)
  | _ => none

/-- Reads a property that is nested at most `depth` deep. -/
def ofJsonWithin? : (depth : Nat) → Json → Option Property
  | 0, _ => none
  | depth + 1, json => do
    let record ← Json.record? ["valueKind", "value", "typeConstraint", "editable", "optional",
      "placeholder", "properties", "imports"] json
    let valueKind ← record.required "valueKind" ValueKind.ofJson?
    let value ← record.required "value" Json.text?
    let typeConstraint ← record.optional "typeConstraint" none (Json.nullable Json.text?)
    let editable ← record.optional "editable" true Json.bool?
    let optional ← record.optional "optional" false Json.bool?
    let placeholder ← record.optional "placeholder" none (Json.nullable Json.text?)
    let properties ← record.optional "properties" [] (entriesOfJson? (ofJsonWithin? depth))
    let imports ← record.optional "imports" [] (Json.list? Json.text?)
    pure ⟨valueKind, value, typeConstraint, editable, optional, placeholder, properties, imports⟩

def ofJson? (json : Json) : Option Property := ofJsonWithin? json.depth json

end Property

namespace Properties

def toJson (properties : Properties) : Json := .object (Property.toJsonEntries properties)

def ofJson? : Json → Option Properties := Property.entriesOfJson? Property.ofJson?

end Properties

namespace Flags

def toJson (flags : Flags) : Json := .ofNat flags.bits.toNat

def ofJson? (json : Json) : Option Flags := (Json.natUpTo? 255 json).map fun n => ⟨n.toUInt8⟩

end Flags

namespace Node

mutual

def toJson : Node → Json
  | ⟨id, kind, label, range, source, properties, children, branches, remarks, suggested, returning,
      flags⟩ =>
    .object
      (Json.field "id" (.string id) ++ Json.field "kind" kind.toJson ++
        Json.field "label" (.string label) ++
        Json.field "sourceRange" (.ofOption SourceRange.toJson range) ++
        Json.fieldIf (!source.isEmpty) "sourceCode" (.string source) ++
        Json.field "properties" (Properties.toJson properties) ++
        Json.fieldIf (!children.isEmpty) "children" (.array (toJsonEach children)) ++
        Json.fieldIf (!branches.isEmpty) "branches" (.array (toJsonEach branches)) ++
        Json.fieldIf (!remarks.isEmpty) "diagnostics" (.ofList Remark.toJson remarks) ++
        Json.fieldOf "suggested" .bool suggested ++
        Json.fieldIf returning "returning" (.bool true) ++
        Json.fieldIf (!flags.isEmpty) "flags" flags.toJson)

def toJsonEach : List Node → List Json
  | [] => []
  | node :: rest => toJson node :: toJsonEach rest

end

/-- Reads a node that is nested at most `depth` deep. -/
def ofJsonWithin? : (depth : Nat) → Json → Option Node
  | 0, _ => none
  | depth + 1, json => do
    let record ← Json.record? ["id", "kind", "label", "sourceRange", "sourceCode", "properties",
      "children", "branches", "diagnostics", "suggested", "returning", "flags"] json
    let id ← record.required "id" Json.text?
    let kind ← record.required "kind" NodeKind.ofJson?
    let label ← record.required "label" Json.text?
    let range ← record.optional "sourceRange" none (Json.nullable SourceRange.ofJson?)
    let source ← record.optional "sourceCode" [] Json.text?
    let properties ← record.optional "properties" [] Properties.ofJson?
    let children ← record.optional "children" [] (Json.list? (ofJsonWithin? depth))
    let branches ← record.optional "branches" [] (Json.list? (ofJsonWithin? depth))
    let remarks ← record.optional "diagnostics" [] (Json.list? Remark.ofJson?)
    let suggested ← record.optional "suggested" none (Json.nullable Json.bool?)
    let returning ← record.optional "returning" false Json.bool?
    let flags ← record.optional "flags" {} Flags.ofJson?
    pure
      { id, kind, label, range, source, properties, children, branches, remarks, suggested
        returning, flags }

def ofJson? (json : Json) : Option Node := ofJsonWithin? json.depth json

end Node

namespace Diagram

def toJson (diagram : Diagram) : Json :=
  .object
    (Json.field "fileName" (.string diagram.file) ++
      Json.fieldOf "functionName" .string diagram.function ++
      Json.field "nodes" (.ofList Node.toJson diagram.nodes) ++
      Json.field "hasReturn" (.bool diagram.hasReturn))

def ofJson? (json : Json) : Option Diagram := do
  let record ← Json.record? ["fileName", "functionName", "nodes", "hasReturn"] json
  let file ← record.required "fileName" Json.text?
  let function ← record.optional "functionName" none (Json.nullable Json.text?)
  let nodes ← record.required "nodes" (Json.list? Node.ofJson?)
  let hasReturn ← record.required "hasReturn" Json.bool?
  pure ⟨file, function, nodes, hasReturn⟩

end Diagram

end Flowchart
