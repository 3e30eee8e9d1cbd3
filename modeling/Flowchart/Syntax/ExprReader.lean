import Flowchart.Syntax.Cursor

/-!
Reading expressions. The tokens up to a stop symbol outside all brackets form one expression, whose
shape is read off its first and last tokens.
-/
namespace Flowchart.ExprReader

/-- The piece of the file from the first to the last of some tokens. -/
def extentOf (src : Source) (tokens : List Token) : Extent :=
  match tokens.head?, tokens.getLast? with
  | some first, some last => src.extent first.start last.stop
  | _, _ => default

/-- Going back from a closing parenthesis that stood before `inner`, the tokens before its
partner, last one first, and those between the two. -/
def matchBack (depth : Nat) (inner : List Token) : List Token → Option (List Token × List Token)
  | [] => none
  | token :: before =>
    if token.is ")" then matchBack (depth + 1) (token :: inner) before
    else if token.is "(" then
      match depth with
      | 0 => some (before, inner)
      | depth + 1 => matchBack depth (token :: inner) before
    else matchBack depth (token :: inner) before

/-- The tokens before and inside the parentheses that a call ends with. -/
def callParts? (tokens : List Token) : Option (List Token × List Token) :=
  match tokens.reverse with
  | [] => none
  | last :: before =>
    if last.is ")" then
      match matchBack 0 [] before with
      | some (head, inner) => if head.isEmpty then none else some (head.reverse, inner)
      | none => none
    else none

/-- The tokens split at commas outside all brackets. Closing brackets without a partner are
ignored. -/
def splitCommas (depth : Nat) : List Token → List (List Token)
  | [] => [[]]
  | token :: rest =>
    if token.is "," && depth == 0 then [] :: splitCommas depth rest
    else
      let depth := if token.opens then depth + 1 else if token.closes then depth - 1 else depth
      match splitCommas depth rest with
      | [] => [[token]]
      | group :: more => (token :: group) :: more

/-- The tokens of each argument of a call. Empty arguments are dropped. -/
def argumentGroups (inner : List Token) : List (List Token) :=
  (splitCommas 0 inner).filter fun group => !group.isEmpty

/-- What a call with the given tokens before its parentheses invokes. -/
def callee? (src : Source) : List Token → Option Callee
  | [name] => if name.isWord then some (.function none name.text) else none
  | [first, sign, second] =>
    if first.isWord && second.isWord then
      if sign.is ":" then some (.function (some first.text) second.text)
      else if sign.is "->" then some (.remote first.text second.text)
      else none
    else none
  | target :: arrow :: slash :: more =>
    match more.reverse with
    | method :: dot :: _ =>
      if target.isWord && arrow.is "->" && slash.is "/" && dot.is "." && method.isWord then
        some (.resource target.text (src.slice slash.start dot.start) method.text)
      else none
    | _ => none
  | _ => none

/-- The expression that some tokens form. Its parts have fewer tokens, so a bound of their number is
enough. -/
def ofTokens (src : Source) : (bound : Nat) → List Token → Expr
  | 0, tokens => .other (extentOf src tokens)
  | bound + 1, tokens =>
    let extent := extentOf src tokens
    match tokens with
    | first :: second :: more =>
      if first.is "check" || first.is "checkpanic" then
        .check extent (first.is "checkpanic") (ofTokens src bound (second :: more))
      else match callParts? tokens with
        | none => .other extent
        | some (head, inner) =>
          match callee? src head with
          | none => .other extent
          | some callee => .call extent callee ((argumentGroups inner).map (ofTokens src bound))
    | _ => .other extent

/-- The tokens up to a stop symbol outside all brackets, and what is left from that symbol on. -/
def collect (src : Source) (stop : Text) (depth : Nat) :
    List Lexeme → Except SyntaxError (List Token × List Lexeme)
  | [] => throw ⟨.unterminatedExpression, src.endPosition⟩
  | lexeme :: rest =>
    let token := lexeme.token
    if depth = 0 ∧ token.is stop then pure ([], lexeme :: rest)
    else if token.opens then do
      let (tokens, rest) ← collect src stop (depth + 1) rest
      pure (token :: tokens, rest)
    else if token.closes then
      match depth with
      | 0 => throw ⟨.unexpected token.text, token.start.position⟩
      | depth + 1 => do
        let (tokens, rest) ← collect src stop depth rest
        pure (token :: tokens, rest)
    else if token.is ";" then throw ⟨.unexpected token.text, token.start.position⟩
    else do
      let (tokens, rest) ← collect src stop depth rest
      pure (token :: tokens, rest)

/-- The expression up to a stop symbol, which is left to be read. -/
def readUntil (src : Source) (stop : Text) : Reader Expr := fun cursor =>
  match collect src stop 0 cursor.rest with
  | .error error => .error error cursor
  | .ok (tokens, rest) =>
    match tokens.getLast? with
    | some last =>
      .ok (ofTokens src tokens.length tokens) { cursor with rest := rest, last := last.stop }
    | none =>
      .error ⟨.expectedExpression, (rest.head?.map (·.token.start.position)).getD src.endPosition⟩
        cursor

end Flowchart.ExprReader
