import Flowchart.Syntax.Cursor

/-!
Finding where a type ends. A type is one or more members with bars between them; a member is a
name, qualified or not, with an argument list in angle brackets or none, or a type in parentheses,
and then question marks and array brackets.
-/
namespace Flowchart.TypeText

/-- Where a type ends and what follows it, or what was left where no type could go on. -/
inductive Scan where
  | found (stop : Mark) (rest : List Lexeme)
  | failed (rest : List Lexeme)
deriving Repr, Inhabited

/-- The rest of an argument list after its first bracket, with `depth` inner lists open. -/
def angles (depth : Nat) : List Lexeme → Scan
  | [] => .failed []
  | ⟨_, token⟩ :: rest =>
    if token.is "<" then angles (depth + 1) rest
    else if token.is ">" then
      match depth with
      | 0 => .found token.stop rest
      | depth + 1 => angles depth rest
    else if token.is ";" || token.is "\x7b" || token.is "\x7d" then .failed rest
    else angles depth rest

def arguments (stop : Mark) : List Lexeme → Scan
  | [] => .found stop []
  | lexeme :: rest => if lexeme.token.is "<" then angles 0 rest else .found stop (lexeme :: rest)

/-- A name, qualified or not, and its argument list. -/
def name : List Lexeme → Scan
  | [] => .failed []
  | first :: rest =>
    if first.token.isWord then
      match rest with
      | colon :: second :: more =>
        if colon.token.is ":" && second.token.isWord then arguments second.token.stop more
        else arguments first.token.stop rest
      | _ => arguments first.token.stop rest
    else .failed (first :: rest)

/-- The rest of an array bracket: a number or a star, or neither, and the closing bracket. -/
def arrayTail (lexemes : List Lexeme) : Scan :=
  let lexemes := match lexemes with
    | size :: rest => if size.token.isNumber || size.token.is "*" then rest else size :: rest
    | [] => []
  match lexemes with
  | [] => .failed []
  | close :: rest =>
    if close.token.is "]" then .found close.token.stop rest else .failed (close :: rest)

mutual

/-- A type with `depth` parentheses open around it. Every step takes a token, so a bound of the
number of tokens is enough. -/
def members (depth : Nat) : (bound : Nat) → List Lexeme → Scan
  | 0, lexemes => .failed lexemes
  | _, [] => .failed []
  | bound + 1, lexeme :: rest =>
    if lexeme.token.is "(" then members (depth + 1) bound rest
    else match name (lexeme :: rest) with
      | .failed rest => .failed rest
      | .found stop rest => suffixes depth stop bound rest

/-- What may follow a member that ends at `stop`. -/
def suffixes (depth : Nat) (stop : Mark) : (bound : Nat) → List Lexeme → Scan
  | 0, lexemes => .failed lexemes
  | _, [] => if depth = 0 then .found stop [] else .failed []
  | bound + 1, lexeme :: rest =>
    if lexeme.token.is "?" then suffixes depth lexeme.token.stop bound rest
    else if lexeme.token.is "[" then
      match arrayTail rest with
      | .failed rest => .failed rest
      | .found stop rest => suffixes depth stop bound rest
    else if lexeme.token.is "|" then members depth bound rest
    else match depth with
      | 0 => .found stop (lexeme :: rest)
      | depth + 1 =>
        if lexeme.token.is ")" then suffixes depth lexeme.token.stop bound rest
        else .failed (lexeme :: rest)

end

def scan (lexemes : List Lexeme) : Scan := members 0 (lexemes.length + 1) lexemes

def read (src : Source) : Reader Text := fun cursor =>
  match cursor.rest with
  | [] => .error ⟨.expectedTypeAtEnd, src.endPosition⟩ cursor
  | first :: _ =>
    match scan cursor.rest with
    | .found stop rest =>
      .ok (src.slice first.token.start stop) { cursor with rest := rest, last := stop }
    | .failed [] => .error ⟨.expectedTypeAtEnd, src.endPosition⟩ cursor
    | .failed (lexeme :: _) => .error ⟨.expectedType, lexeme.token.start.position⟩ cursor

end Flowchart.TypeText
