import Flowchart.Codec.Position
import Flowchart.Syntax.Tree

/-!
The JSON form of a source file's tree. Ranges are lists of four numbers, since the whole tree lies
in one file.
-/
namespace Flowchart

namespace SourceRange

def toNumbers (range : SourceRange) : Json :=
  .array
    [ .ofNat range.start.line, .ofNat range.start.column, .ofNat range.stop.line,
      .ofNat range.stop.column ]

end SourceRange

namespace Expr

def describe (e : Expr) (kind : Text) (parts : List (Text × Json)) : Json :=
  .object
    [ ("kind", .string kind), ("range", e.range.toNumbers), ("source", .string e.source),
      ("unparenthesized", .string e.unparenthesized),
      ("named", .ofOption (fun named => .array [.string named.1, .string named.2])
        e.namedArgument?),
      ("unchecked", .string e.unchecked.source), ("parts", .object parts) ]

mutual

def toJson : Expr → Json
  | e@(.check _ panics inner) =>
    describe e "Check" (Json.field "panic" (.bool panics) ++ Json.field "inner" (toJson inner))
  | e@(.call _ (.function qualifier name) args) =>
    describe e "FunctionCall"
      (Json.field "module" (.ofOption .string qualifier) ++ Json.field "name" (.string name) ++
        Json.field "args" (.array (toJsons args)))
  | e@(.call _ (.remote target method) args) =>
    describe e "RemoteCall"
      (Json.field "target" (.string target) ++ Json.field "method" (.string method) ++
        Json.field "args" (.array (toJsons args)))
  | e@(.call _ (.resource target path method) args) =>
    describe e "ResourceCall"
      (Json.field "target" (.string target) ++ Json.field "path" (.string path) ++
        Json.field "method" (.string method) ++ Json.field "args" (.array (toJsons args)))
  | e@(.other _) => describe e "Other" []

def toJsons : List Expr → List Json
  | [] => []
  | e :: rest => toJson e :: toJsons rest

end

end Expr

namespace Statement

def describe (extent : Extent) (kind : Text) (parts : List (Text × Json)) : Json :=
  .object
    [ ("kind", .string kind), ("range", extent.range.toNumbers),
      ("source", .string extent.source), ("parts", .object parts) ]

mutual

def toJson : Statement → Json
  | .varDecl extent isFinal typeName name init =>
    describe extent "VarDecl"
      (Json.field "final" (.bool isFinal) ++ Json.field "type" (.string typeName) ++
        Json.field "name" (.string name) ++ Json.field "init" (.ofOption Expr.toJson init))
  | .assign extent target value =>
    describe extent "Assign"
      (Json.field "target" (.string target) ++ Json.field "value" value.toJson)
  | .ret extent value => describe extent "Return" (Json.field "value" (.ofOption Expr.toJson value))
  | .cond extent condition body otherwise =>
    describe extent "If"
      (Json.field "condition" condition.toJson ++ Json.field "then" (blockJson body) ++
        Json.field "else" (otherwiseJson otherwise))
  | .loop extent condition body handler =>
    describe extent "While"
      (Json.field "condition" condition.toJson ++ Json.field "body" (blockJson body) ++
        Json.field "onFail" (handlerJson handler))
  | .each extent typeName name collection body handler =>
    describe extent "Foreach"
      (Json.field "type" (.string typeName) ++ Json.field "name" (.string name) ++
        Json.field "collection" collection.toJson ++ Json.field "body" (blockJson body) ++
        Json.field "onFail" (handlerJson handler))
  | .attempt extent body handler =>
    describe extent "Do"
      (Json.field "body" (blockJson body) ++ Json.field "onFail" (handlerJson handler))
  | .lock extent body handler =>
    describe extent "Lock"
      (Json.field "body" (blockJson body) ++ Json.field "onFail" (handlerJson handler))
  | .exitLoop extent => describe extent "Break" []
  | .nextRound extent => describe extent "Continue" []
  | .panic extent value => describe extent "Panic" (Json.field "value" value.toJson)
  | .fail extent value => describe extent "Fail" (Json.field "value" value.toJson)
  | .expression extent value => describe extent "Expression" (Json.field "value" value.toJson)
  | .comment extent lines =>
    describe extent "Comment" (Json.field "lines" (.ofList .string lines))
  | .invalid extent => describe extent "Invalid" []

def otherwiseJson : Otherwise → Json
  | .nothing => .null
  | .cond extent condition body otherwise =>
    .object (Json.field "if" (describe extent "If"
      (Json.field "condition" condition.toJson ++ Json.field "then" (blockJson body) ++
        Json.field "else" (otherwiseJson otherwise))))
  | .block body => .object (Json.field "block" (blockJson body))

def handlerJson : Handler → Json
  | .nothing => .null
  | .onFail binding body =>
    .object
      (Json.field "errorType" (.ofOption .string (binding.map Prod.fst)) ++
        Json.field "errorVar" (.ofOption .string (binding.map Prod.snd)) ++
        Json.field "body" (blockJson body))

def blockJson : Block → Json
  | .mk extent statements =>
    .object
      (Json.field "range" extent.range.toNumbers ++ Json.field "source" (.string extent.source) ++
        Json.field "statements" (.array (toJsons statements)))

def toJsons : List Statement → List Json
  | [] => []
  | statement :: rest => toJson statement :: toJsons rest

end

end Statement

namespace Block

def toJson (block : Block) : Json := Statement.blockJson block

end Block

namespace Import

def toJson (imported : Import) : Json :=
  .object
    [ ("org", .string imported.org), ("module", .string imported.name),
      ("prefix", .string imported.qualifier), ("range", imported.range.toNumbers) ]

end Import

namespace Param

def toJson (param : Param) : Json :=
  .object
    [ ("type", .string param.typeName), ("name", .string param.name),
      ("range", param.range.toNumbers) ]

end Param

namespace FunctionDef

def toJson (function : FunctionDef) : Json :=
  .object
    [ ("name", .string function.name), ("params", .ofList Param.toJson function.params),
      ("returnType", .ofOption .string function.returnType), ("range", function.range.toNumbers),
      ("signatureRange", function.signature.range.toNumbers),
      ("signatureSource", .string function.signature.source), ("body", function.body.toJson) ]

end FunctionDef

namespace SourceFile

def toJson (file : SourceFile) : Json :=
  .object
    [ ("fileName", .string file.name), ("importIds", .ofList .string file.importNames),
      ("imports", .ofList Import.toJson file.imports),
      ("functions", .ofList FunctionDef.toJson file.functions),
      ("diagnostics", .ofList Diagnostic.toJson file.diagnostics) ]

end SourceFile

end Flowchart
