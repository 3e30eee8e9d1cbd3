import Flowchart.Codec.Position
import Flowchart.Json.Readable
import Flowchart.TypeDesc.Basic

/-!
The JSON forms of module names and types. A type is an object whose key `kind` tells its form, or an
array that starts with that name. Since the form is known only once the whole value is read, all of
it has to be readable, the ignored parts too. A type inside another one may also give its form as a
number.
-/
namespace Flowchart

namespace ModuleName

def toJson (module : ModuleName) : Json :=
  .object [("org", .string module.org), ("name", .string module.name)]

def ofJson? (json : Json) : Option ModuleName := do
  let record ← Json.record? ["org", "name"] json
  pure ⟨← record.required "org" Json.text?, ← record.required "name" Json.text?⟩

end ModuleName

namespace BasicType

def kindName : BasicType → Text
  | nil => "nil"
  | type => type.name

def all : List BasicType :=
  [nil, boolean, int, float, decimal, string, byte, json, any, anydata]

def ofKindName? (name : Text) : Option BasicType := all.find? fun type => type.kindName = name

end BasicType

namespace TypeDesc

def tagged (kind : Text) (fields : List (Text × Json)) : Json :=
  .object (("kind", .string kind) :: fields)

mutual

def toJson : TypeDesc → Json
  | basic type => tagged type.kindName []
  | error module name =>
    tagged "error"
      (Json.fieldOf "module" ModuleName.toJson module ++ Json.fieldOf "name" .string name)
  | named module name =>
    tagged "named"
      (Json.fieldOf "module" ModuleName.toJson module ++ Json.field "name" (.string name))
  | array element size =>
    tagged "array" (("element", toJson element) :: Json.fieldOf "size" .ofNat size)
  | map value => tagged "map" [("value", toJson value)]
  | stream value => tagged "stream" [("value", toJson value)]
  | optional inner => tagged "optional" [("inner", toJson inner)]
  | union members => tagged "union" [("members", .array (toJsonEach members))]
  | tuple members => tagged "tuple" [("members", .array (toJsonEach members))]
  | function params returns =>
    tagged "function" [("params", .array (toJsonParams params)), ("returns", toJson returns)]

def toJsonEach : List TypeDesc → List Json
  | [] => []
  | type :: rest => toJson type :: toJsonEach rest

def toJsonParams : List (Parameter TypeDesc) → List Json
  | [] => []
  | ⟨name, type, defaultable⟩ :: rest =>
    .object [("name", .string name), ("type", toJson type), ("defaultable", .bool defaultable)] ::
      toJsonParams rest

end

/-- The forms of a type, in the order in which numbers stand for them. -/
def kindNames : List Text :=
  BasicType.all.map BasicType.kindName ++
    (["error", "named", "array", "map", "stream", "optional", "union", "tuple", "function"] :
      List Text)

/-- The form that a tag tells; `nested` tags may be numbers. -/
def kindOf? (nested : Bool) : Json → Option Text
  | .string kind => some kind
  | tag => if nested then (Json.nat? tag).bind fun n => kindNames[n]? else none

/-- The form of a type and what stands beside its tag. -/
def untagged? (nested : Bool) : Json → Option (Text × Json)
  | .object fields =>
    match fields.partition fun field => field.1 == "kind".toList with
    | ([(_, tag)], rest) => (kindOf? nested tag).map fun kind => (kind, .object rest)
    | _ => none
  | .array (tag :: rest) => (kindOf? nested tag).map fun kind => (kind, .array rest)
  | _ => none

/-- A type without fields takes whatever stands beside its tag in an object, and nothing in an
array. -/
def holdsNothing : Json → Bool
  | .array items => items.isEmpty
  | _ => true

def paramOfJson? (read : Json → Option TypeDesc) (json : Json) : Option (Parameter TypeDesc) := do
  let record ← Json.record? ["name", "type", "defaultable"] json
  let name ← record.required "name" Json.text?
  let type ← record.required "type" read
  let defaultable ← record.optional "defaultable" false Json.bool?
  pure ⟨name, type, defaultable⟩

/-- Reads a type that holds types at most `depth` deep; `nested` types stand inside another one. -/
def ofJsonWithin? (nested : Bool) : (depth : Nat) → Json → Option TypeDesc
  | 0, _ => none
  | depth + 1, json => do
    let (kind, rest) ← untagged? nested json
    let inner := ofJsonWithin? true depth
    if kind = "error" then
      let record ← Json.record? ["module", "name"] rest
      let module ← record.optional "module" none (Json.nullable ModuleName.ofJson?)
      let name ← record.optional "name" none (Json.nullable Json.text?)
      pure (.error module name)
    else if kind = "named" then
      let record ← Json.record? ["module", "name"] rest
      let module ← record.optional "module" none (Json.nullable ModuleName.ofJson?)
      pure (.named module (← record.required "name" Json.text?))
    else if kind = "array" then
      let record ← Json.record? ["element", "size"] rest
      let element ← record.required "element" inner
      pure (.array element (← record.optional "size" none (Json.nullable Json.nat?)))
    else if kind = "map" then
      let record ← Json.record? ["value"] rest
      pure (.map (← record.required "value" inner))
    else if kind = "stream" then
      let record ← Json.record? ["value"] rest
      pure (.stream (← record.required "value" inner))
    else if kind = "optional" then
      let record ← Json.record? ["inner"] rest
      pure (.optional (← record.required "inner" inner))
    else if kind = "union" then
      let record ← Json.record? ["members"] rest
      pure (.union (← record.required "members" (Json.list? inner)))
    else if kind = "tuple" then
      let record ← Json.record? ["members"] rest
      pure (.tuple (← record.required "members" (Json.list? inner)))
    else if kind = "function" then
      let record ← Json.record? ["params", "returns"] rest
      let params ← record.required "params" (Json.list? (paramOfJson? inner))
      pure (.function params (← record.required "returns" inner))
    else
      let type ← BasicType.ofKindName? kind
      if holdsNothing rest then pure (.basic type) else none

def ofHeld? (json : Json) : Option TypeDesc := ofJsonWithin? false json.depth json

/-- A tagged value is held to its last part before it is read. -/
def ofJson? (library : Json.Library) (json : Json) : Option TypeDesc :=
  if library.holds json then ofHeld? json else none

end TypeDesc

namespace Parameter

def toJson (param : Parameter TypeDesc) : Json :=
  .object
    [ ("name", .string param.name), ("type", param.type.toJson),
      ("defaultable", .bool param.defaultable) ]

def ofJson? (library : Json.Library) (json : Json) : Option (Parameter TypeDesc) :=
  TypeDesc.paramOfJson? (TypeDesc.ofJson? library) json

end Parameter

end Flowchart
