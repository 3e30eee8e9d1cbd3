import Flowchart.Syntax.FileReader

/-!
Readers that watch themselves. A strict reader follows the reader of the same name, but its steps
are not bounded, and it stops without an answer as soon as it would take a part of a text or of a
list out of range, count below zero, go round a loop without having passed a token since, or read
something nested without having passed one before.
-/
namespace Flowchart.Strict

open Reader Lexeme

/-- One less, unless there is nothing to take from. -/
def decrement? : Nat → Option Nat
  | 0 => none
  | n + 1 => some n

/-- The part of a list between two indices, if they are in order and in range. -/
def part? {α : Type} (list : List α) (start stop : Nat) : Option (List α) :=
  if start ≤ stop ∧ stop ≤ list.length then some ((list.take stop).drop start) else none

def slice? (src : Source) (start stop : Mark) : Option Text :=
  part? src.text start.index stop.index

def extent? (src : Source) (start stop : Mark) : Option Extent :=
  (slice? src start stop).map fun text => ⟨src.range start stop, text⟩

/-- A strict reader: no answer, or a value or an error with the cursor after it. -/
def Checked (α : Type) : Type := Cursor → Option (EStateM.Result SyntaxError Cursor α)

variable {α β : Type}

/-- Goes on after a value, and stops where the first reader stops. -/
def Checked.bind (x : Checked α) (f : α → Checked β) : Checked β := fun cursor =>
  match x cursor with
  | none => none
  | some (.error error cursor) => some (.error error cursor)
  | some (.ok a cursor) => f a cursor

instance : Monad Checked where
  pure a := fun cursor => some (.ok a cursor)
  bind := Checked.bind

/-- A reader in which nothing has to be watched. -/
def lift (read : Reader α) : Checked α := fun cursor => some (read cursor)

/-- Stops if there is no value. -/
def demand (value : Option α) : Checked α := fun cursor => value.map (.ok · cursor)

/-- The tokens of a text that starts at `mark`. Each is the next piece of the text, and not empty. -/
def scanFrom (mark : Mark) (text : Text) : Option (Except SyntaxError (List Token)) :=
  match text with
  | [] => some (.ok [])
  | c :: rest =>
    if Text.isBlank c then scanFrom (mark.after [c]) rest
    else match Token.take? c rest with
      | none => some (.error ⟨.unterminatedString, mark.position⟩)
      | some (cls, body, left) =>
        if left.length < rest.length + 1 ∧ body ++ left = c :: rest then do
          let more ← scanFrom (mark.after body) left
          some (more.map (⟨cls, body, mark, mark.after body⟩ :: ·))
        else none
termination_by text.length

namespace TypeText

open Flowchart.TypeText (Scan)

def angles (depth : Nat) : List Lexeme → Option Scan
  | [] => some (.failed [])
  | ⟨_, token⟩ :: rest =>
    if token.is "<" then angles (depth + 1) rest
    else if token.is ">" then do
      let depth ← decrement? depth
      if depth = 0 then some (.found token.stop rest) else angles depth rest
    else if token.is ";" || token.is "\x7b" || token.is "\x7d" then some (.failed rest)
    else angles depth rest

def arguments (stop : Mark) : List Lexeme → Option Scan
  | [] => some (.found stop [])
  | lexeme :: rest =>
    if lexeme.token.is "<" then angles 0 (lexeme :: rest) else some (.found stop (lexeme :: rest))

def name : List Lexeme → Option Scan
  | [] => some (.failed [])
  | first :: rest =>
    if first.token.isWord then
      match rest with
      | colon :: second :: more =>
        if colon.token.is ":" && second.token.isWord then arguments second.token.stop more
        else arguments first.token.stop rest
      | _ => arguments first.token.stop rest
    else some (.failed (first :: rest))

mutual

def members (depth : Nat) (lexemes : List Lexeme) : Option Scan :=
  match lexemes with
  | [] => some (.failed [])
  | lexeme :: rest =>
    if lexeme.token.is "(" then members (depth + 1) rest
    else do
      match ← name (lexeme :: rest) with
      | .failed left => some (.failed left)
      | .found stop left =>
        if left.length < rest.length + 1 then suffixes depth stop left else none
termination_by lexemes.length

def suffixes (depth : Nat) (stop : Mark) (lexemes : List Lexeme) : Option Scan :=
  match lexemes with
  | [] => some (if depth = 0 then .found stop [] else .failed [])
  | lexeme :: rest =>
    if lexeme.token.is "?" then suffixes depth lexeme.token.stop rest
    else if lexeme.token.is "[" then
      match Flowchart.TypeText.arrayTail rest with
      | .failed left => some (.failed left)
      | .found stop left =>
        if left.length < rest.length + 1 then suffixes depth stop left else none
    else if lexeme.token.is "|" then members depth rest
    else if depth = 0 then some (.found stop (lexeme :: rest))
    else if lexeme.token.is ")" then do
      let depth ← decrement? depth
      suffixes depth lexeme.token.stop rest
    else some (.failed (lexeme :: rest))
termination_by lexemes.length

end

end TypeText

namespace ExprReader

def extentOf (src : Source) (tokens : List Token) : Option Extent :=
  match tokens.head?, tokens.getLast? with
  | some first, some last => extent? src first.start last.stop
  | _, _ => none

/-- Going back over some tokens, the index of the one that opens the parentheses which the last one
closes, unless it is the first token. -/
def openParen (depth : Nat) : List Token → Option (Option Nat)
  | [] => some none
  | token :: before =>
    if token.is ")" then openParen (depth + 1) before
    else if token.is "(" then do
      let depth ← decrement? depth
      if depth = 0 then some (if before.isEmpty then none else some before.length)
      else openParen depth before
    else openParen depth before

def callParts (tokens : List Token) : Option (Option (List Token × List Token)) :=
  match tokens.getLast? with
  | none => some none
  | some last =>
    if last.is ")" then do
      match ← openParen 0 tokens.reverse with
      | none => some none
      | some opening => do
        let head ← part? tokens 0 opening
        let inner ← part? tokens (opening + 1) (← decrement? tokens.length)
        some (some (head, inner))
    else some none

def arguments (tokens : List Token) (depth start index : Nat) :
    List Token → Option (List (List Token))
  | [] =>
    if start < tokens.length then do
      let last ← part? tokens start tokens.length
      some [last]
    else some []
  | token :: rest =>
    if token.is "," && depth == 0 then do
      let more ← arguments tokens depth (index + 1) (index + 1) rest
      if start < index then do
        let group ← part? tokens start index
        some (group :: more)
      else some more
    else
      let depth := if token.opens then depth + 1 else if token.closes then depth - 1 else depth
      arguments tokens depth start (index + 1) rest

def callee (src : Source) : List Token → Option (Option Callee)
  | [name] => some (if name.isWord then some (.function none name.text) else none)
  | [first, sign, second] =>
    some (
      if first.isWord && second.isWord then
        if sign.is ":" then some (.function (some first.text) second.text)
        else if sign.is "->" then some (.remote first.text second.text)
        else none
      else none)
  | target :: arrow :: slash :: more =>
    match more.reverse with
    | method :: dot :: _ =>
      if target.isWord && arrow.is "->" && slash.is "/" && dot.is "." && method.isWord then do
        let path ← slice? src slash.start dot.start
        some (some (.resource target.text path method.text))
      else some none
    | _ => some none
  | _ => some none

/-- The expression that some tokens form. Its parts have fewer tokens. -/
def ofTokens (src : Source) (tokens : List Token) : Option Expr := do
  let extent ← extentOf src tokens
  match tokens with
  | first :: second :: more =>
    if first.is "check" || first.is "checkpanic" then do
      let inner ← ofTokens src (second :: more)
      some (.check extent (first.is "checkpanic") inner)
    else do
      match ← callParts (first :: second :: more) with
      | none => some (.other extent)
      | some (head, inner) => do
        let args ← (← arguments inner 0 0 0 inner).mapM fun group =>
          if group.length < more.length + 2 then ofTokens src group else none
        match ← callee src head with
        | none => some (.other extent)
        | some callee => some (.call extent callee args)
  | _ => some (.other extent)
termination_by tokens.length

def collect (src : Source) (stop : Text) (depth : Nat) :
    List Lexeme → Option (Except SyntaxError (List Token × List Lexeme))
  | [] => some (.error ⟨.unterminatedExpression, src.endPosition⟩)
  | lexeme :: rest =>
    let token := lexeme.token
    if depth = 0 ∧ token.is stop then some (.ok ([], lexeme :: rest))
    else if token.opens then do
      let more ← collect src stop (depth + 1) rest
      some (more.map fun (tokens, rest) => (token :: tokens, rest))
    else if token.closes then
      if depth = 0 then some (.error ⟨.unexpected token.text, token.start.position⟩)
      else do
        let more ← collect src stop (← decrement? depth) rest
        some (more.map fun (tokens, rest) => (token :: tokens, rest))
    else if token.is ";" then some (.error ⟨.unexpected token.text, token.start.position⟩)
    else do
      let more ← collect src stop depth rest
      some (more.map fun (tokens, rest) => (token :: tokens, rest))

def readUntil (src : Source) (stop : Text) : Checked Expr := fun cursor => do
  match ← collect src stop 0 cursor.rest with
  | .error error => some (.error error cursor)
  | .ok (tokens, rest) =>
    match tokens.getLast? with
    | some last => do
      let value ← ofTokens src tokens
      some (.ok value { cursor with rest := rest, last := last.stop })
    | none =>
      some (.error
        ⟨.expectedExpression, (rest.head?.map (·.token.start.position)).getD src.endPosition⟩ cursor)

end ExprReader

def TypeText.read (src : Source) : Checked Text := fun cursor =>
  match cursor.rest with
  | [] => some (.error ⟨.expectedTypeAtEnd, src.endPosition⟩ cursor)
  | first :: _ => do
    match ← TypeText.members 0 cursor.rest with
    | .found stop rest => do
      let text ← slice? src first.token.start stop
      some (.ok text { cursor with rest := rest, last := stop })
    | .failed [] => some (.error ⟨.expectedTypeAtEnd, src.endPosition⟩ cursor)
    | .failed (lexeme :: _) => some (.error ⟨.expectedType, lexeme.token.start.position⟩ cursor)

namespace StatementReader

open Flowchart.StatementReader (Shape afterEquals commentRun commentBody broken)

def targetStop? (depth : Nat) (previous : Option Mark) : List Lexeme → Option (Option Mark)
  | [] => some none
  | ⟨_, token⟩ :: rest =>
    if token.opens then targetStop? (depth + 1) (some token.stop) rest
    else if token.closes then
      if depth = 0 then some none
      else do targetStop? (← decrement? depth) (some token.stop) rest
    else if depth = 0 ∧ token.is ";" then some none
    else if depth = 0 ∧ token.is "=" then some previous
    else targetStop? depth (some token.stop) rest

def declaration? (src : Source) (cursor : Cursor) : Option (Option (Text × Text × Cursor)) :=
  match cursor.rest with
  | [] => some none
  | first :: _ => do
    match ← TypeText.members 0 cursor.rest with
    | .found stop (name :: follow :: rest) =>
      if name.token.isWord && (follow.token.is "=" || follow.token.is ";") then do
        let typeName ← slice? src first.token.start stop
        some (some (typeName, name.token.text,
          { cursor with rest := follow :: rest, last := name.token.stop }))
      else some none
    | _ => some none

def valueToSemicolon (src : Source) : Checked Expr := do
  let value ← ExprReader.readUntil src ";"
  let _ ← lift (expect src ";")
  pure value

def initializer (src : Source) : Checked (Option Expr) := do
  let init ← if ← lift (eat "=") then some <$> ExprReader.readUntil src ";" else pure none
  let _ ← lift (expect src ";")
  pure init

def simple (src : Source) : Checked Shape := do
  let isFinal ← lift (eat "final")
  let cursor ← lift get
  match ← demand (declaration? src cursor) with
  | some (typeName, name, cursor) => do
    lift (set cursor)
    let init ← initializer src
    pure fun extent => .varDecl extent isFinal typeName name init
  | none =>
    if isFinal then
      match cursor.peek? with
      | some token => lift (failAt token .expectedFinalVariable)
      | none => lift (failAtEnd src .expectedFinalVariableAtEnd)
    else do
      let found ← demand (targetStop? 0 none cursor.rest)
      match cursor.peek?, found with
      | some first, some stop => do
        let target ← demand (slice? src first.start stop)
        lift (set { cursor with rest := afterEquals cursor.rest })
        let value ← valueToSemicolon src
        pure fun extent => .assign extent (Text.trim target) value
      | _, _ => do
        let value ← valueToSemicolon src
        pure fun extent => .expression extent value

def handler (src : Source) (block : Checked Block) : Checked Handler := do
  let cursor ← lift get
  if cursor.at? "on" && cursor.peekSecond?.any (·.is "fail") then
    lift advance
    lift advance
    let binding ← if (← lift get).at? "\x7b" then pure none else do
      let typeName ← TypeText.read src
      let name ← lift (expectWord src)
      pure (some (typeName, name.text))
    let body ← block
    pure (.onFail binding body)
  else pure .nothing

/-- A condition, its block and what follows the block. Each further condition is read with fewer
tokens left. -/
def conditional (src : Source) (block : Checked Block) (cursor : Cursor) :
    Option (EStateM.Result SyntaxError Cursor (Expr × Block × Otherwise)) :=
  let read : Checked (Expr × Block × Otherwise) := do
    let _ ← lift (expect src "if")
    let condition ← ExprReader.readUntil src "\x7b"
    let body ← block
    if ← lift (eat "else") then
      match (← lift get).peek? with
      | some token =>
        if token.is "if" then
          let (inner, innerBody, otherwise) ← fun next =>
            if count next.rest < count cursor.rest then conditional src block next
            else none
          let extent ← demand (extent? src token.start (← lift get).last)
          pure (condition, body, .cond extent inner innerBody otherwise)
        else pure (condition, body, .block (← block))
      | none => pure (condition, body, .block (← block))
    else pure (condition, body, .nothing)
  read cursor
termination_by count cursor.rest

def shape (src : Source) (block : Checked Block) (first : Token) : Checked Shape := do
  if first.is "return" then
    lift advance
    if ← lift (eat ";") then pure fun extent => .ret extent none
    else
      let value ← valueToSemicolon src
      pure fun extent => .ret extent (some value)
  else if first.is "if" then
    let (condition, body, otherwise) ← conditional src block
    pure fun extent => .cond extent condition body otherwise
  else if first.is "while" then
    lift advance
    let condition ← ExprReader.readUntil src "\x7b"
    let body ← block
    let handler ← handler src block
    pure fun extent => .loop extent condition body handler
  else if first.is "foreach" then
    lift advance
    let typeName ← TypeText.read src
    let name ← lift (expectWord src)
    let _ ← lift (expect src "in")
    let collection ← ExprReader.readUntil src "\x7b"
    let body ← block
    let handler ← handler src block
    pure fun extent => .each extent typeName name.text collection body handler
  else if first.is "do" then
    lift advance
    let body ← block
    let handler ← handler src block
    pure fun extent => .attempt extent body handler
  else if first.is "lock" then
    lift advance
    let body ← block
    let handler ← handler src block
    pure fun extent => .lock extent body handler
  else if first.is "break" then
    lift advance
    let _ ← lift (expect src ";")
    pure .exitLoop
  else if first.is "continue" then
    lift advance
    let _ ← lift (expect src ";")
    pure .nextRound
  else if (first.is "panic" || first.is "fail") && !(← lift get).peekSecond?.any (·.is "=") then
    lift advance
    let value ← valueToSemicolon src
    pure fun extent => if first.is "panic" then .panic extent value else .fail extent value
  else simple src

def statement (src : Source) (block : Checked Block) (first : Token) : Checked Statement := do
  let make ← shape src block first
  let extent ← demand (extent? src first.start (← lift get).last)
  pure (make extent)

def comment? (src : Source) : Checked (Option Statement) := fun cursor =>
  match cursor.rest with
  | ⟨first :: comments, token⟩ :: rest => do
    let (run, left) := commentRun first comments
    let stop := (run.getLast?.getD first).stop
    let extent ← extent? src first.start stop
    some (.ok (some (.comment extent ((first :: run).map commentBody)))
      { cursor with rest := ⟨left, token⟩ :: rest, last := stop })
  | _ => some (.ok none cursor)

/-- Passes over a broken statement with `depth` braces open. -/
def skipBroken (depth : Nat) (last : Mark) : List Lexeme → Option (Mark × List Lexeme)
  | [] => some (last, [])
  | lexeme :: rest =>
    let token := lexeme.token
    if token.is "\x7d" then
      if depth = 0 then
        some ((lexeme.comments.getLast?.map Token.stop).getD last,
          { lexeme with comments := [] } :: rest)
      else do
        let depth ← decrement? depth
        if depth = 0 then some (token.stop, rest) else skipBroken depth token.stop rest
    else if token.is "\x7b" then skipBroken (depth + 1) token.stop rest
    else if depth = 0 ∧ token.is ";" then some (token.stop, rest)
    else skipBroken depth token.stop rest

def recovering (src : Source) (read : Token → Checked Statement) (first : Token) :
    Checked Statement :=
  fun cursor => do
    match ← read first cursor with
    | .ok statement after => some (.ok statement after)
    | .error error failed => do
      let (stop, rest) ← skipBroken 0 first.stop cursor.rest
      let extent ← extent? src first.start stop
      some (.ok (.invalid extent)
        { rest := rest, last := stop, log := failed.log ++ [broken error extent.range] })

/-- The statements up to the brace that closes a block. After each of them fewer tokens and comments
are left. -/
def statements (src : Source) (read : Token → Checked Statement) (opening : Token)
    (cursor : Cursor) : Option (EStateM.Result SyntaxError Cursor (List Statement)) :=
  let again : Checked (List Statement) := fun next =>
    if count next.rest < count cursor.rest then statements src read opening next
    else none
  let round : Checked (List Statement) := do
    match ← comment? src with
    | some comment => return comment :: (← again)
    | none =>
      match (← lift get).peek? with
      | none => lift (failAt opening .unterminatedBlock)
      | some token =>
        if token.is "\x7d" then pure []
        else
          let first ← recovering src read token
          return first :: (← again)
  round cursor
termination_by count cursor.rest

/-- A block. The blocks nested in it are read with fewer tokens left. -/
def block (src : Source) (cursor : Cursor) : Option (EStateM.Result SyntaxError Cursor Block) :=
  let nested : Checked Block := fun next =>
    if count next.rest < count cursor.rest then block src next else none
  let read : Checked Block := do
    let opening ← lift (expect src "\x7b")
    let body ← statements src (statement src nested) opening
    let closing ← lift (expect src "\x7d")
    let extent ← demand (extent? src opening.start closing.stop)
    pure (.mk extent body)
  read cursor
termination_by count cursor.rest

end StatementReader

namespace FileReader

def dottedTail (src : Source) (stop : Mark) (cursor : Cursor) :
    Option (EStateM.Result SyntaxError Cursor Mark) :=
  let read : Checked Mark := do
    if ← lift (eat ".") then
      let part ← lift (expectWord src)
      fun next =>
        if count next.rest < count cursor.rest then dottedTail src part.stop next
        else none
    else pure stop
  read cursor
termination_by count cursor.rest

def importDecl (src : Source) : Checked Import := do
  let keyword ← lift (expect src "import")
  let org ← lift (expectWord src)
  let _ ← lift (expect src "/")
  let first ← lift (expectWord src)
  let stop ← dottedTail src first.stop
  let semicolon ← lift (expect src ";")
  let name ← demand (slice? src first.start stop)
  pure ⟨org.text, name, src.range keyword.start semicolon.stop⟩

def params (src : Source) (cursor : Cursor) :
    Option (EStateM.Result SyntaxError Cursor (List Param)) :=
  let read : Checked (List Param) := do
    let start := ((← lift get).peek?.map Token.start).getD {}
    let typeName ← TypeText.read src
    let name ← lift (expectWord src)
    let param : Param := ⟨typeName, name.text, src.range start name.stop⟩
    if ← lift (eat ",") then
      let more ← fun next =>
        if count next.rest < count cursor.rest then params src next else none
      pure (param :: more)
    else pure [param]
  read cursor
termination_by count cursor.rest

def parameters (src : Source) : Checked (List Param) := do
  if (← lift get).at? ")" then pure [] else params src

def returned (src : Source) : Checked (Option Text) := do
  if ← lift (eat "returns") then some <$> TypeText.read src else pure none

def functionDef (src : Source) : Checked FunctionDef := do
  let keyword ← lift (expect src "function")
  let name ← lift (expectWord src)
  let _ ← lift (expect src "(")
  let params ← parameters src
  let _ ← lift (expect src ")")
  let returnType ← returned src
  let signature ← demand (extent? src keyword.start (← lift get).last)
  let body ← StatementReader.block src
  pure
    { name := name.text
      params := params
      returnType := returnType
      body := body
      range := src.range keyword.start (← lift get).last
      signature := signature }

def declarations (src : Source) (cursor : Cursor) :
    Option (EStateM.Result SyntaxError Cursor (List Import × List FunctionDef)) :=
  let again : Checked (List Import × List FunctionDef) := fun next =>
    if count next.rest < count cursor.rest then declarations src next else none
  let round : Checked (List Import × List FunctionDef) := do
    match (← lift get).peek? with
    | none => pure ([], [])
    | some token =>
      if token.is "import" then
        let first ← importDecl src
        let (imports, functions) ← again
        pure (first :: imports, functions)
      else if token.is "public" || token.is "isolated" then
        lift advance
        again
      else if token.is "function" then
        let first ← functionDef src
        let (imports, functions) ← again
        pure (imports, first :: functions)
      else lift (failAt token (.expectedDeclaration token.text))
  round cursor
termination_by count cursor.rest

def wholeBlock (src : Source) : Checked Block := do
  let block ← StatementReader.block src
  match (← lift get).peek? with
  | none => pure block
  | some token => lift (failAt token .trailingTokens)

def run (src : Source) (read : Checked α) : Option (Except SyntaxError (α × Cursor)) := do
  match ← scanFrom {} src.text with
  | .error error => some (.error error)
  | .ok tokens => do
    match ← read { rest := ofTokens [] tokens } with
    | .ok value cursor => some (.ok (value, cursor))
    | .error error _ => some (.error error)

end FileReader

def readFile (src : Source) : Option (Except SyntaxError SourceFile) := do
  let result ← FileReader.run src (FileReader.declarations src)
  some (result.map fun ((imports, functions), cursor) => ⟨src.file, imports, functions, cursor.log⟩)

def readBlock (src : Source) : Option (Except SyntaxError Block) := do
  let result ← FileReader.run src (FileReader.wholeBlock src)
  some (result.map Prod.fst)

end Flowchart.Strict
