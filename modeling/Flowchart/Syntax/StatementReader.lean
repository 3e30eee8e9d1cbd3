import Flowchart.Syntax.ExprReader
import Flowchart.Syntax.Tree
import Flowchart.Syntax.TypeText

/-!
Reading statements and blocks. A statement that cannot be read is passed over up to the end of its
line or of the braces it opens, kept as an invalid one and reported in the log; the block around
it goes on. A block that is not closed cannot be read at all.
-/
namespace Flowchart.StatementReader

open Reader

/-- A statement up to the piece of the file that it covers. -/
abbrev Shape := Extent → Statement

/-- The end of the assigned target when an equals sign outside all brackets comes before the
semicolon. `previous` is the end of the token before. -/
def targetStop? (depth : Nat) (previous : Option Mark) : List Lexeme → Option Mark
  | [] => none
  | ⟨_, token⟩ :: rest =>
    if token.opens then targetStop? (depth + 1) (some token.stop) rest
    else if token.closes then
      match depth with
      | 0 => none
      | depth + 1 => targetStop? depth (some token.stop) rest
    else if depth = 0 ∧ token.is ";" then none
    else if depth = 0 ∧ token.is "=" then previous
    else targetStop? depth (some token.stop) rest

/-- What follows the first equals sign, whatever brackets it stands in. -/
def afterEquals : List Lexeme → List Lexeme
  | [] => []
  | lexeme :: rest => if lexeme.token.is "=" then rest else afterEquals rest

/-- The type, the name and the cursor after the name, where a type, a name and then an equals sign
or a semicolon follow. -/
def declaration? (src : Source) (cursor : Cursor) : Option (Text × Text × Cursor) :=
  match cursor.rest, TypeText.scan cursor.rest with
  | first :: _, .found stop (name :: follow :: rest) =>
    if name.token.isWord && (follow.token.is "=" || follow.token.is ";") then
      some (src.slice first.token.start stop, name.token.text,
        { cursor with rest := follow :: rest, last := name.token.stop })
    else none
  | _, _ => none

def valueToSemicolon (src : Source) : Reader Expr := do
  let value ← ExprReader.readUntil src ";"
  let _ ← expect src ";"
  pure value

def initializer (src : Source) : Reader (Option Expr) := do
  let init ← if ← eat "=" then some <$> ExprReader.readUntil src ";" else pure none
  let _ ← expect src ";"
  pure init

def simple (src : Source) : Reader Shape := do
  let isFinal ← eat "final"
  let cursor ← get
  match declaration? src cursor with
  | some (typeName, name, cursor) => do
    set cursor
    let init ← initializer src
    pure fun extent => .varDecl extent isFinal typeName name init
  | none =>
    if isFinal then
      match cursor.peek? with
      | some token => failAt token .expectedFinalVariable
      | none => failAtEnd src .expectedFinalVariableAtEnd
    else match cursor.peek?, targetStop? 0 none cursor.rest with
      | some first, some stop => do
        set { cursor with rest := afterEquals cursor.rest }
        let value ← valueToSemicolon src
        pure fun extent => .assign extent (Text.trim (src.slice first.start stop)) value
      | _, _ => do
        let value ← valueToSemicolon src
        pure fun extent => .expression extent value

def handler (src : Source) (block : Reader Block) : Reader Handler := do
  let cursor ← get
  if cursor.at? "on" && cursor.peekSecond?.any (·.is "fail") then
    advance
    advance
    let binding ← if (← get).at? "\x7b" then pure none else do
      let typeName ← TypeText.read src
      let name ← expectWord src
      pure (some (typeName, name.text))
    let body ← block
    pure (.onFail binding body)
  else pure .nothing

/-- A condition, its block and what follows the block. Each further condition takes a token, so a
bound of the number of tokens is enough. -/
def conditional (src : Source) (block : Reader Block) :
    (bound : Nat) → Reader (Expr × Block × Otherwise)
  | 0 => failAtEnd src .tooDeep
  | bound + 1 => do
    let _ ← expect src "if"
    let condition ← ExprReader.readUntil src "\x7b"
    let body ← block
    if ← eat "else" then
      match (← get).peek? with
      | some token =>
        if token.is "if" then
          let (inner, innerBody, otherwise) ← conditional src block bound
          let extent := src.extent token.start (← get).last
          pure (condition, body, .cond extent inner innerBody otherwise)
        else pure (condition, body, .block (← block))
      | none => pure (condition, body, .block (← block))
    else pure (condition, body, .nothing)

/-- The statement that starts with the token `first`. -/
def shape (src : Source) (block : Reader Block) (first : Token) : Reader Shape := do
  if first.is "return" then
    advance
    if ← eat ";" then pure fun extent => .ret extent none
    else
      let value ← valueToSemicolon src
      pure fun extent => .ret extent (some value)
  else if first.is "if" then
    let (condition, body, otherwise) ← conditional src block (← get).rest.length
    pure fun extent => .cond extent condition body otherwise
  else if first.is "while" then
    advance
    let condition ← ExprReader.readUntil src "\x7b"
    let body ← block
    let handler ← handler src block
    pure fun extent => .loop extent condition body handler
  else if first.is "foreach" then
    advance
    let typeName ← TypeText.read src
    let name ← expectWord src
    let _ ← expect src "in"
    let collection ← ExprReader.readUntil src "\x7b"
    let body ← block
    let handler ← handler src block
    pure fun extent => .each extent typeName name.text collection body handler
  else if first.is "do" then
    advance
    let body ← block
    let handler ← handler src block
    pure fun extent => .attempt extent body handler
  else if first.is "lock" then
    advance
    let body ← block
    let handler ← handler src block
    pure fun extent => .lock extent body handler
  else if first.is "break" then
    advance
    let _ ← expect src ";"
    pure .exitLoop
  else if first.is "continue" then
    advance
    let _ ← expect src ";"
    pure .nextRound
  else if (first.is "panic" || first.is "fail") && !(← get).peekSecond?.any (·.is "=") then
    advance
    let value ← valueToSemicolon src
    pure fun extent => if first.is "panic" then .panic extent value else .fail extent value
  else simple src

/-- The statement that starts with the token `first`, with the piece of the file that it covers. -/
def statement (src : Source) (block : Reader Block) (first : Token) : Reader Statement := do
  let make ← shape src block first
  pure (make (src.extent first.start (← get).last))

/-- The comments that follow `previous` line by line, and the ones after a gap. -/
def commentRun (previous : Token) : List Token → List Token × List Token
  | [] => ([], [])
  | token :: rest =>
    if token.start.position.line = previous.start.position.line + 1 then
      let (run, rest) := commentRun token rest
      (token :: run, rest)
    else ([], token :: rest)

def commentBody (token : Token) : Text := Text.trim (token.text.dropWhile (· = '/'))

/-- The first run of comments before the next token, as a statement. -/
def comment? (src : Source) : Reader (Option Statement) := fun cursor =>
  match cursor.rest with
  | ⟨first :: comments, token⟩ :: rest =>
    let (run, left) := commentRun first comments
    let stop := (run.getLast?.getD first).stop
    .ok (some (.comment (src.extent first.start stop) ((first :: run).map commentBody)))
      { cursor with rest := ⟨left, token⟩ :: rest, last := stop }
  | _ => .ok none cursor

/-- Passes over a broken statement with `depth` braces open: up to and with the semicolon or closing
brace that ends it, or up to the brace that closes the block around it. -/
def skipBroken (depth : Nat) (last : Mark) : List Lexeme → Mark × List Lexeme
  | [] => (last, [])
  | lexeme :: rest =>
    let token := lexeme.token
    if token.is "\x7d" then
      match depth with
      | 0 =>
        ((lexeme.comments.getLast?.map Token.stop).getD last,
          { lexeme with comments := [] } :: rest)
      | 1 => (token.stop, rest)
      | depth + 2 => skipBroken (depth + 1) token.stop rest
    else if token.is "\x7b" then skipBroken (depth + 1) token.stop rest
    else if depth = 0 ∧ token.is ";" then (token.stop, rest)
    else skipBroken depth token.stop rest

/-- The diagnostic for a statement that could not be read. -/
def broken (error : SyntaxError) (range : SourceRange) : Diagnostic where
  severity := .error
  message := error.fault.message
  code := some "syntax"
  range := range

/-- Reads a statement, or passes over it and reports why it could not be read. -/
def recovering (src : Source) (read : Token → Reader Statement) (first : Token) :
    Reader Statement :=
  fun cursor =>
    match read first cursor with
    | .ok statement after => .ok statement after
    | .error error failed =>
      let (stop, rest) := skipBroken 0 first.stop cursor.rest
      let extent := src.extent first.start stop
      .ok (.invalid extent)
        { rest := rest, last := stop, log := failed.log ++ [broken error extent.range] }

/-- The statements up to the brace that closes a block. Each takes a token or a comment, so a
bound of one more than their number is enough. -/
def statements (src : Source) (read : Token → Reader Statement) (opening : Token) :
    (bound : Nat) → Reader (List Statement)
  | 0 => failAtEnd src .tooDeep
  | bound + 1 => do
    match ← comment? src with
    | some comment => return comment :: (← statements src read opening bound)
    | none =>
      match (← get).peek? with
      | none => failAt opening .unterminatedBlock
      | some token =>
        if token.is "\x7d" then pure []
        else
          let first ← recovering src read token
          return first :: (← statements src read opening bound)

/-- A block with blocks nested in it up to `depth`. -/
def block (src : Source) : (depth : Nat) → Reader Block
  | 0 => failAtEnd src .tooDeep
  | depth + 1 => do
    let opening ← expect src "\x7b"
    let body ← statements src (statement src (block src depth)) opening
      (Lexeme.count (← get).rest + 1)
    let closing ← expect src "\x7d"
    pure (.mk (src.extent opening.start closing.stop) body)

end Flowchart.StatementReader
