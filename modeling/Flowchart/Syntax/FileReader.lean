import Flowchart.Syntax.StatementReader

/-!
Reading a whole file: imports and functions in any order, with the words public and isolated
passed over between them. A file that breaks off outside of a statement cannot be read.
-/
namespace Flowchart

namespace FileReader

open Reader

/-- The parts of a dotted name after the first, each after a point; the end of the last one. -/
def dottedTail (src : Source) (stop : Mark) : (bound : Nat) → Reader Mark
  | 0 => failAtEnd src .tooDeep
  | bound + 1 => do
    if ← eat "." then
      let part ← expectWord src
      dottedTail src part.stop bound
    else pure stop

def importDecl (src : Source) : Reader Import := do
  let keyword ← expect src "import"
  let org ← expectWord src
  let _ ← expect src "/"
  let first ← expectWord src
  let stop ← dottedTail src first.stop ((← get).rest.length + 1)
  let semicolon ← expect src ";"
  pure ⟨org.text, src.slice first.start stop, src.range keyword.start semicolon.stop⟩

def params (src : Source) : (bound : Nat) → Reader (List Param)
  | 0 => failAtEnd src .tooDeep
  | bound + 1 => do
    let start := ((← get).peek?.map Token.start).getD {}
    let typeName ← TypeText.read src
    let name ← expectWord src
    let param : Param := ⟨typeName, name.text, src.range start name.stop⟩
    if ← eat "," then return param :: (← params src bound)
    else pure [param]

def functionDef (src : Source) : Reader FunctionDef := do
  let keyword ← expect src "function"
  let name ← expectWord src
  let _ ← expect src "("
  let params ← if (← get).at? ")" then pure [] else params src ((← get).rest.length + 1)
  let _ ← expect src ")"
  let returnType ← if ← eat "returns" then some <$> TypeText.read src else pure none
  let signature := src.extent keyword.start (← get).last
  let body ← StatementReader.block src ((← get).rest.length + 1)
  pure
    { name := name.text
      params := params
      returnType := returnType
      body := body
      range := src.range keyword.start (← get).last
      signature := signature }

/-- The imports and functions up to the end of the file. -/
def declarations (src : Source) : (bound : Nat) → Reader (List Import × List FunctionDef)
  | 0 => failAtEnd src .tooDeep
  | bound + 1 => do
    match (← get).peek? with
    | none => pure ([], [])
    | some token =>
      if token.is "import" then
        let first ← importDecl src
        let (imports, functions) ← declarations src bound
        pure (first :: imports, functions)
      else if token.is "public" || token.is "isolated" then
        advance
        declarations src bound
      else if token.is "function" then
        let first ← functionDef src
        let (imports, functions) ← declarations src bound
        pure (imports, first :: functions)
      else failAt token (.expectedDeclaration token.text)

def wholeBlock (src : Source) : Reader Block := do
  let block ← StatementReader.block src ((← get).rest.length + 1)
  match (← get).peek? with
  | none => pure block
  | some token => failAt token .trailingTokens

def run {α : Type} (src : Source) (read : Reader α) : Except SyntaxError (α × Cursor) := do
  let tokens ← Token.scan src.text
  match read { rest := Lexeme.ofTokens [] tokens } with
  | .ok value cursor => pure (value, cursor)
  | .error error _ => throw error

end FileReader

namespace SourceFile

def read (src : Source) : Except SyntaxError SourceFile := do
  let ((imports, functions), cursor) ← FileReader.run src fun cursor =>
    FileReader.declarations src (cursor.rest.length + 1) cursor
  pure ⟨src.file, imports, functions, cursor.log⟩

end SourceFile

namespace Block

/-- Reads a text that holds one block and nothing else. -/
def read (src : Source) : Except SyntaxError Block := do
  let (block, _) ← FileReader.run src (FileReader.wholeBlock src)
  pure block

end Block

end Flowchart
