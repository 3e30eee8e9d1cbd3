import Flowchart.Diagnostic.Basic
import Flowchart.Syntax.Expr
import Flowchart.Token.Scan

/-!
The state of reading a file. Tokens are read with the comments that stand before them, so that a
comment is seen only where a statement may start. The log of problems survives a failure, while
the place in the text is given up and chosen anew by whoever recovers.
-/
namespace Flowchart

/-- A token that is not a comment, with the comments right before it. -/
structure Lexeme where
  comments : List Token
  token : Token
deriving DecidableEq, Repr, Inhabited

namespace Lexeme

/-- Hands each run of comments to the token after it. Comments after the last token are dropped. -/
def ofTokens (pending : List Token) : List Token → List Lexeme
  | [] => []
  | token :: rest =>
    if token.isComment then ofTokens (pending ++ [token]) rest
    else ⟨pending, token⟩ :: ofTokens [] rest

def count : List Lexeme → Nat
  | [] => 0
  | lexeme :: rest => lexeme.comments.length + 1 + count rest

end Lexeme

structure Source where
  file : Text
  text : Text
deriving DecidableEq, Repr, Inhabited

namespace Source

def endPosition (src : Source) : Position := ({} : Position).after src.text

def range (src : Source) (start stop : Mark) : SourceRange :=
  ⟨src.file, start.position, stop.position⟩

def slice (src : Source) (start stop : Mark) : Text := Text.slice src.text start.index stop.index

def extent (src : Source) (start stop : Mark) : Extent :=
  ⟨src.range start stop, src.slice start stop⟩

end Source

/-- What is left to read, the end of the last token that was read, and the problems so far. -/
structure Cursor where
  rest : List Lexeme
  last : Mark := {}
  log : List Diagnostic := []
deriving Inhabited

namespace Cursor

def next (cursor : Cursor) : Cursor :=
  match cursor.rest with
  | [] => cursor
  | lexeme :: rest => { cursor with rest := rest, last := lexeme.token.stop }

def peek? (cursor : Cursor) : Option Token := cursor.rest.head?.map Lexeme.token

def peekSecond? (cursor : Cursor) : Option Token := cursor.rest.tail.head?.map Lexeme.token

def at? (cursor : Cursor) (text : Text) : Bool := cursor.peek?.any (·.is text)

end Cursor

/-- A step of reading: a value or an error, and the cursor after it. -/
abbrev Reader := EStateM SyntaxError Cursor

namespace Reader

def failAt {α : Type} (token : Token) (fault : SyntaxFault) : Reader α :=
  throw ⟨fault, token.start.position⟩

def failAtEnd {α : Type} (src : Source) (fault : SyntaxFault) : Reader α :=
  throw ⟨fault, src.endPosition⟩

def advance : Reader Unit := modify Cursor.next

/-- Passes over the next token if it is spelled as given. -/
def eat (text : Text) : Reader Bool := fun cursor =>
  if cursor.at? text then .ok true cursor.next else .ok false cursor

/-- The next token, which must be spelled as given. -/
def expect (src : Source) (text : Text) : Reader Token := fun cursor =>
  match cursor.peek? with
  | none => .error ⟨.expectedAtEnd text, src.endPosition⟩ cursor
  | some token =>
    if token.is text then .ok token cursor.next
    else .error ⟨.expected text token.text, token.start.position⟩ cursor

def expectWord (src : Source) : Reader Token := fun cursor =>
  match cursor.peek? with
  | none => .error ⟨.expectedIdentifierAtEnd, src.endPosition⟩ cursor
  | some token =>
    if token.isWord then .ok token cursor.next
    else .error ⟨.expectedIdentifier token.text, token.start.position⟩ cursor

end Reader

end Flowchart
