import Flowchart.Codec.Edit
import Flowchart.Command.Arguments
import Flowchart.Node.Outline

/-!
Running a command. The files it names are read through a function that the caller supplies, and so is
the JSON in them; what it prints, and the file that it writes, are part of the result.
-/
namespace Flowchart.Command

inductive Failure where
  | unreadable (path reason : Text)
  | malformedIndex
  | malformedNode (path : Text)
  | flow (error : FlowError)
deriving DecidableEq, Repr, Inhabited

namespace Failure

def message : Failure → Text
  | unreadable path reason => "Failed to read '" ++ path ++ "': " ++ reason
  | malformedIndex => "Failed to load index data"
  | malformedNode path => "Failed to parse node JSON '" ++ path ++ "'"
  | flow error => error.message

end Failure

/-- What a command prints, and the file that it writes with its new text. -/
structure Output where
  printed : Text
  written : Option (Text × Text) := none
deriving DecidableEq, Repr, Inhabited

/-- The text of a file, or the reason why it cannot be read. -/
abbrev Files := Text → Except Text Text

def readFile (files : Files) (path : Text) : Except Failure Text :=
  match files path with
  | .ok text => .ok text
  | .error reason => .error (.unreadable path reason)

/-- Reads data of a file that may not be given. -/
def readIndex {α : Type} (library : Json.Library) (files : Files)
    (decode : Json.Library → Json → Option α) (fallback : α) :
    Option Text → Except Failure α
  | none => .ok fallback
  | some path => do
    let text ← readFile files path
    match (library.read? text).bind (decode library) with
    | some value => pure value
    | none => throw .malformedIndex

def readNode (library : Json.Library) (files : Files) (path : Text) : Except Failure Node := do
  let text ← readFile files path
  match (library.read? text).bind Node.ofJson? with
  | some node => pure node
  | none => throw (.malformedNode path)

def session (library : Json.Library) (files : Files) (file : Text) (indexes : IndexFiles) :
    Except Failure Session := do
  let text ← readFile files file
  let symbols ← readIndex library files SymbolTable.ofJson? {} indexes.symbols
  let connectors ← readIndex library files ConnectorIndex.ofJson? .standard indexes.connectors
  pure { source := ⟨file, text⟩, symbols := symbols, connectors := connectors }

def orFail {α : Type} : Except FlowError α → Except Failure α
  | .ok value => .ok value
  | .error error => .error (.flow error)

def printed (library : Json.Library) (pretty : Bool) (json : Json) : Text :=
  (if pretty then library.pretty json else library.compact json) ++ "\n"

/-- Where a generated node goes: on a line of its own at the position, if one is given. -/
def placement (file : Text) (imported : List Text) (insertAt : Option Position) : Placement :=
  { path := file, imported := imported, insertAt := insertAt, afterSibling := insertAt.isSome }

def run (library : Json.Library) (files : Files) : Command → Except Failure Output
  | .analyze file function indexes tree pretty => do
    let session ← session library files file indexes
    let diagram ← orFail (session.diagram function)
    pure ⟨if tree then Node.outline diagram.nodes else printed library pretty diagram.toJson, none⟩
  | .generate file node insertAt pretty => do
    let text ← readFile files file
    let node ← readNode library files node
    let imported := match SourceFile.read ⟨file, text⟩ with
      | .ok source => source.importNames
      | .error _ => []
    match (placement file imported insertAt).edits Placement.defaultWidth node with
    | .ok edits => pure ⟨printed library pretty edits.toJson, none⟩
    | .error error => throw (.flow (.unrendered error))
  | .sync file function node insertAt indexes write pretty => do
    let session ← session library files file indexes
    let node ← readNode library files node
    match session.apply function node insertAt with
    | .ok outcome after =>
      let written := if write then some (file, after.source.text) else none
      pure ⟨printed library pretty outcome.toJson, written⟩
    | .error error _ => throw (.flow error)

def paths : Command → List Text
  | .analyze file _ indexes _ _ => file :: (indexes.symbols.toList ++ indexes.connectors.toList)
  | .generate file node _ _ => [file, node]
  | .sync file _ node _ indexes _ _ =>
    file :: node :: (indexes.symbols.toList ++ indexes.connectors.toList)

end Flowchart.Command
