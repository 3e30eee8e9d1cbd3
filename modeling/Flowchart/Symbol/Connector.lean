import Flowchart.Node.Kind
import Flowchart.Symbol.Basic

/-!
Connectors: client classes of known modules. Some of their methods have a kind of node of their own.
-/
namespace Flowchart

/-- A method of a connector, with the kind of node for its calls if there is a special one. -/
structure ConnectorMethod where
  name : Text
  kind : SymbolKind
  nodeKind : Option NodeKind := none
  params : List (Parameter TypeDesc)
  returns : TypeDesc
deriving Repr, Inhabited

structure Connector where
  module : ModuleName
  name : Text
  methods : List ConnectorMethod
deriving Repr, Inhabited

structure ConnectorIndex where
  connectors : List Connector := []
deriving Repr, Inhabited

namespace ConnectorIndex

def method? (index : ConnectorIndex) (module : ModuleName) (name : Text) : Option ConnectorMethod :=
  ((index.connectors.filter fun connector => connector.module = module).flatMap (·.methods)).find?
    fun method => method.name = name

def nodeKind? (index : ConnectorIndex) (module : ModuleName) (name : Text) : Option NodeKind :=
  (index.method? module name).bind (·.nodeKind)

def http : ModuleName := ⟨"ballerina", "http"⟩

/-- What the methods of the HTTP client return: a response or an error. -/
def httpResponse : TypeDesc :=
  .union [.named (some http) "Response", .error (some http) (some "ClientError")]

/-- The parameters that every method of the HTTP client ends with. -/
def httpOptions : List (Parameter TypeDesc) :=
  [ { name := "headers"
      type := .optional (.map (.union [.basic .string, .array (.basic .string) none]))
      defaultable := true },
    { name := "targetType", type := .named (some http) "TargetType", defaultable := true } ]

def httpGetMethod : ConnectorMethod where
  name := "get"
  kind := .remoteMethod
  nodeKind := some .httpGet
  params := { name := "path", type := .basic .string } :: httpOptions
  returns := httpResponse

def httpPostMethod : ConnectorMethod where
  name := "post"
  kind := .remoteMethod
  nodeKind := some .httpPost
  params :=
    { name := "path", type := .basic .string } ::
      { name := "message", type := .basic .anydata } :: httpOptions
  returns := httpResponse

def standard : ConnectorIndex :=
  ⟨[{ module := http, name := "Client", methods := [httpGetMethod, httpPostMethod] }]⟩

end ConnectorIndex

end Flowchart
