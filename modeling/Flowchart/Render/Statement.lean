import Flowchart.Error
import Flowchart.Node.Basic
import Flowchart.Render.Layout

/-!
Writing nodes as source text. Every kind of node has one form; a block can only be written as part
of another node. Values are written without the blanks around them, and a property that has
nothing but blanks counts as missing.
-/
namespace Flowchart.Render

abbrev Rendered := Except RenderError Text

structure Part where
  branch : Node
  children : List Rendered
deriving Inhabited

def missing {α : Type} (node : Node) (key : Text) : Except RenderError α :=
  .error (.missingProperty node.kind key)

def given? (node : Node) (key : Text) : Option Text :=
  ((node.property? key).filter fun property => !property.isBlank).map (·.value)

def required (node : Node) (key : Text) : Except RenderError Text :=
  match given? node key with
  | some value => .ok value
  | none => missing node key

/-- The first branch of a label, whatever the case of its letters. -/
def part? (parts : List Part) (label : Text) : Option Part :=
  parts.find? fun part => Text.sameIgnoringCase part.branch.label label

def requiredPart (node : Node) (parts : List Part) (label : Text) : Except RenderError Part :=
  match part? parts label with
  | some part => .ok part
  | none => missing node label

/-- Writes the children of a branch in braces, each on lines of its own one step further in. -/
def body (width : Nat) (part : Part) (script : Script) : Except RenderError Script := do
  let texts ← part.children.mapM id
  let opened := script.word "\x7b"
  pure (opened.close ((texts.flatMap fun text => '\n' :: Layout.indent width text) ++ "\n\x7d"))

def endStatement (script : Script) : Text := (script.close ";").text

def handler (width : Nat) (node : Node) (parts : List Part) (script : Script) :
    Except RenderError Script :=
  match part? parts BranchLabel.onFail with
  | none => pure script
  | some part => do
    let script := (script.word "on").word "fail"
    let script ← match given? part.branch Key.errorType, given? part.branch Key.errorVariable with
      | some typeName, some name => pure (script.binding typeName name)
      | none, none => pure script
      | some _, none => missing node Key.errorVariable
      | none, some _ => missing node Key.errorType
    body width part script

def guarded (width : Nat) (node : Node) (parts : List Part) (script : Script) : Rendered := do
  let script ← body width (← requiredPart node parts BranchLabel.body) script
  pure (← handler width node parts script).text

def parenthesized (condition : Text) : Text := "(" ++ Text.trim condition ++ ")"

/-- Writes a condition with its branches. An else branch that holds one condition and nothing else
goes on as a further condition. -/
def conditional (width : Nat) (node : Node) (parts : List Part) : Rendered := do
  let condition ← required node Key.condition
  let script := (({} : Script).word "if").word (parenthesized condition)
  let script ← body width (← requiredPart node parts BranchLabel.whenTrue) script
  match part? parts BranchLabel.whenFalse with
  | none => pure script.text
  | some part =>
    let script := script.word "else"
    match part.branch.children, part.children with
    | [single], [text] =>
      if single.kind = .cond then pure (script.word (← text)).text
      else pure (← body width part script).text
    | _, _ => pure (← body width part script).text

def assignee (node : Node) : Except RenderError Script :=
  match given? node Key.type, given? node Key.name with
  | some typeName, some name => .ok ((({} : Script).binding typeName name).word "=")
  | none, some name => .ok ((({} : Script).trimmed name).word "=")
  | some _, none => missing node Key.name
  | none, none => .ok {}

def check (node : Node) (script : Script) : Script :=
  if node.hasFlag .checkPanic then script.word "checkpanic"
  else if node.hasFlag .checked then script.word "check"
  else script

def callee (node : Node) (script : Script) : Except RenderError Script := do
  if node.kind = .functionCall then
    let function ← required node Key.function
    match given? node Key.module with
    | some module => pure (((script.trimmed module).join ":").trimmed function)
    | none => pure (script.trimmed function)
  else if node.kind = .resourceCall then
    let connection ← required node Key.connection
    let path ← required node Key.resourcePath
    let method ← required node Key.method
    pure (((((script.trimmed connection).join "->").trimmed path).join ".").trimmed method)
  else
    let connection ← required node Key.connection
    let method ← required node Key.method
    pure (((script.trimmed connection).join "->").trimmed method)

/-- Writes the arguments of a call. After one that is left out, the others are given by name. -/
def arguments (node : Node) (isFirst isNamed : Bool) (script : Script) :
    Properties → Except RenderError Script
  | [] => .ok script
  | (key, property) :: rest =>
    if Key.callStructure.contains key then arguments node isFirst isNamed script rest
    else if property.isBlank then
      if property.optional then arguments node isFirst true script rest
      else missing node key
    else
      let script := if isFirst then script else script.close ","
      let script := if isNamed then (script.trimmed key).word "=" else script
      arguments node false isNamed (script.trimmed property.value) rest

def call (node : Node) : Rendered := do
  let script ← callee node (check node (← assignee node))
  let script ← arguments node true false (script.join "(") node.properties
  pure (endStatement (script.close ")"))

def signature (node : Node) : Text :=
  let name := (given? node Key.name).getD node.label
  let parts := ((node.property? Key.parameters).map (·.properties)).getD []
  let params : List Text := parts.map fun (name, property) =>
    Text.trim property.value ++ (' ' :: name)
  let script := (((((({} : Script).word "function").trimmed name).join "(").word
    (List.intercalate ", " params)).close ")")
  match given? node Key.returnType with
  | some returnType => ((script.word "returns").trimmed returnType).text
  | none => script.text

def commentLines (comment : Text) : Text :=
  List.intercalate "\n" ((Text.lines comment).map fun line =>
    let text := Text.trim line
    if text.isEmpty then "//" else "// " ++ text)

def declaration (node : Node) : Rendered := do
  let script : Script := if node.hasFlag .final then ({} : Script).word "final" else {}
  let typeName ← required node Key.type
  let name ← required node Key.name
  let script := script.binding typeName name
  pure (endStatement (match given? node Key.value with
    | some value => (script.word "=").trimmed value
    | none => script))

def assignment (node : Node) : Rendered := do
  let name ← required node Key.name
  let value ← required node Key.value
  pure (endStatement (((({} : Script).trimmed name).word "=").trimmed value))

/-- Writes an expression as a statement. One that ends in a semicolon or brace is complete. -/
def expression (node : Node) : Rendered :=
  match (given? node Key.expression).or (given? node Key.statement) with
  | none => missing node Key.expression
  | some value =>
    let text := Text.trim value
    let script := ({} : Script).word text
    if text.getLast? = some ';' ∨ text.getLast? = some '\x7d' then .ok script.text
    else .ok (endStatement script)

/-- Writes a return. With a type, the value is bound to the name of nothing instead. -/
def returned (node : Node) : Rendered :=
  match given? node Key.type with
  | some typeName => do
    let value ← required node Key.expression
    pure (endStatement (((({} : Script).binding typeName "_").word "=").trimmed value))
  | none =>
    let script := ({} : Script).word "return"
    .ok (endStatement (match given? node Key.expression with
      | some value => script.trimmed value
      | none => script))

def raised (keyword : Text) (node : Node) : Rendered := do
  let value ← required node Key.expression
  pure (endStatement ((({} : Script).word keyword).trimmed value))

/-- Writes a node whose branches have rendered children. -/
def statement (width : Nat) (node : Node) (parts : List Part) : Rendered :=
  match node.kind with
  | .start => .ok (signature node)
  | .varDecl => declaration node
  | .assign => assignment node
  | .expression => expression node
  | .ret => returned node
  | .stop => .ok (endStatement (({} : Script).word "return"))
  | .exitLoop => .ok (endStatement (({} : Script).word "break"))
  | .nextRound => .ok (endStatement (({} : Script).word "continue"))
  | .panic => raised "panic" node
  | .fail => raised "fail" node
  | .cond => conditional width node parts
  | .loop => do
    let condition ← required node Key.condition
    guarded width node parts ((({} : Script).word "while").word (parenthesized condition))
  | .each => do
    let typeName ← required node Key.type
    let name ← required node Key.name
    let collection ← required node Key.collection
    guarded width node parts
      ((((({} : Script).word "foreach").binding typeName name).word "in").trimmed collection)
  | .errorHandler => guarded width node parts (({} : Script).word "do")
  | .lock => guarded width node parts (({} : Script).word "lock")
  | .comment => do
    let comment ← required node Key.comment
    pure (({} : Script).word (commentLines comment)).text
  | .functionCall => call node
  | .remoteCall => call node
  | .resourceCall => call node
  | .httpGet => call node
  | .httpPost => call node
  | .block => .error (.unsupportedKind node.kind)

mutual

/-- The source text of a node with its first line at column zero. -/
def render (width : Nat) : Node → Rendered
  | node@⟨_, _, _, _, _, _, _, branches, _, _, _, _⟩ =>
    statement width node (renderBranches width branches)

def renderBranches (width : Nat) : List Node → List Part
  | [] => []
  | branch@⟨_, _, _, _, _, _, children, _, _, _, _, _⟩ :: rest =>
    ⟨branch, renderEach width children⟩ :: renderBranches width rest

def renderEach (width : Nat) : List Node → List Rendered
  | [] => []
  | node :: rest => render width node :: renderEach width rest

end

end Flowchart.Render
