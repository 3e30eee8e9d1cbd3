import Flowchart.Diagnostic.Basic
import Flowchart.Syntax.Expr

/-!
The tree of a source file: imports and functions, and in a function's body one statement per line
of the language. Every statement and block keeps the piece of the file that it covers.
-/
namespace Flowchart

mutual

/-- A statement. A stretch that could not be read as one is `invalid`, and comment lines that
follow one another form one `comment`. -/
inductive Statement where
  | varDecl (extent : Extent) (isFinal : Bool) (typeName name : Text) (init : Option Expr)
  | assign (extent : Extent) (target : Text) (value : Expr)
  | ret (extent : Extent) (value : Option Expr)
  | cond (extent : Extent) (condition : Expr) (body : Block) (otherwise : Otherwise)
  | loop (extent : Extent) (condition : Expr) (body : Block) (handler : Handler)
  | each (extent : Extent) (typeName name : Text) (collection : Expr) (body : Block)
      (handler : Handler)
  | attempt (extent : Extent) (body : Block) (handler : Handler)
  | lock (extent : Extent) (body : Block) (handler : Handler)
  | exitLoop (extent : Extent)
  | nextRound (extent : Extent)
  | panic (extent : Extent) (value : Expr)
  | fail (extent : Extent) (value : Expr)
  | expression (extent : Extent) (value : Expr)
  | comment (extent : Extent) (lines : List Text)
  | invalid (extent : Extent)

/-- What follows the block of a condition: nothing, a further condition, or a block. -/
inductive Otherwise where
  | nothing
  | cond (extent : Extent) (condition : Expr) (body : Block) (otherwise : Otherwise)
  | block (body : Block)

/-- What runs when a block fails: nothing, or a block that may bind the error by type and name. -/
inductive Handler where
  | nothing
  | onFail (binding : Option (Text × Text)) (body : Block)

/-- A sequence of statements in braces. The extent takes in both braces. -/
inductive Block where
  | mk (extent : Extent) (statements : List Statement)

end

instance : Inhabited Block := ⟨.mk default []⟩

instance : Inhabited Statement := ⟨.invalid default⟩

namespace Block

def extent : Block → Extent
  | mk extent _ => extent

def statements : Block → List Statement
  | mk _ statements => statements

def range (block : Block) : SourceRange := block.extent.range

def source (block : Block) : Text := block.extent.source

end Block

namespace Statement

def extent : Statement → Extent
  | varDecl extent .. => extent
  | assign extent .. => extent
  | ret extent .. => extent
  | cond extent .. => extent
  | loop extent .. => extent
  | each extent .. => extent
  | attempt extent .. => extent
  | lock extent .. => extent
  | exitLoop extent => extent
  | nextRound extent => extent
  | panic extent .. => extent
  | fail extent .. => extent
  | expression extent .. => extent
  | comment extent .. => extent
  | invalid extent => extent

def range (statement : Statement) : SourceRange := statement.extent.range

def source (statement : Statement) : Text := statement.extent.source

end Statement

/-- An imported module, by its organization and its dotted name. -/
structure Import where
  org : Text
  name : Text
  range : SourceRange
deriving DecidableEq, Repr, Inhabited

namespace Import

/-- The name that the module goes by in the file: the last part of its dotted name. -/
def qualifier (imported : Import) : Text := Text.afterLast '.' imported.name

end Import

structure Param where
  typeName : Text
  name : Text
  range : SourceRange
deriving DecidableEq, Repr, Inhabited

/-- A function. Its signature runs from the keyword to the end of the return type or the
parameters. -/
structure FunctionDef where
  name : Text
  params : List Param
  returnType : Option Text
  body : Block
  range : SourceRange
  signature : Extent
deriving Inhabited

/-- A source file and the problems that reading it recovered from. -/
structure SourceFile where
  name : Text
  imports : List Import
  functions : List FunctionDef
  diagnostics : List Diagnostic
deriving Inhabited

namespace SourceFile

def function? (file : SourceFile) (name : Text) : Option FunctionDef :=
  file.functions.find? (·.name = name)

/-- The imported modules, each as organization, slash and name. -/
def importNames (file : SourceFile) : List Text :=
  file.imports.map fun imported => imported.org ++ "/" ++ imported.name

end SourceFile

end Flowchart
