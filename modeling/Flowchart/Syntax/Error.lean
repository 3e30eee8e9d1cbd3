import Flowchart.Position.Basic

/-!
Why a text cannot be read: one cause per kind of fault, with the position it is reported at.
-/
namespace Flowchart

/-- What is wrong at the place where reading stopped. -/
inductive SyntaxFault where
  | unterminatedString
  | expected (wanted found : Text)
  | expectedAtEnd (wanted : Text)
  | expectedIdentifier (found : Text)
  | expectedIdentifierAtEnd
  | expectedDeclaration (found : Text)
  | expectedType
  | expectedTypeAtEnd
  | expectedExpression
  | unterminatedExpression
  | unexpected (found : Text)
  | expectedFinalVariable
  | expectedFinalVariableAtEnd
  | unterminatedBlock
  | trailingTokens
  /-- The nesting bound of the reader was reached, which no text does. -/
  | tooDeep
deriving DecidableEq, Repr, Inhabited

namespace SyntaxFault

def atEnd (text : Text) : Text := text ++ " before end of input"

def message : SyntaxFault → Text
  | unterminatedString => "Unterminated string literal"
  | expected wanted found => "Expected '" ++ wanted ++ "', found '" ++ found ++ "'"
  | expectedAtEnd wanted => atEnd ("Expected '" ++ wanted ++ "'")
  | expectedIdentifier found => "Expected identifier, found '" ++ found ++ "'"
  | expectedIdentifierAtEnd => atEnd "Expected identifier"
  | expectedDeclaration found => "Expected 'import' or 'function', found '" ++ found ++ "'"
  | expectedType => "Expected a type"
  | expectedTypeAtEnd => atEnd "Expected a type"
  | expectedExpression => "Expected an expression"
  | unterminatedExpression => atEnd "Unterminated expression"
  | unexpected found => "Unexpected '" ++ found ++ "'"
  | expectedFinalVariable => "Expected a variable declaration after 'final'"
  | expectedFinalVariableAtEnd => atEnd "Expected a variable declaration"
  | unterminatedBlock => "Unterminated block"
  | trailingTokens => "Unexpected tokens after block"
  | tooDeep => "Blocks are nested too deep"

end SyntaxFault

/-- A fault and the position it is reported at. -/
structure SyntaxError where
  fault : SyntaxFault
  position : Position
deriving DecidableEq, Repr, Inhabited

namespace SyntaxError

def message (e : SyntaxError) : Text :=
  "Syntax error at " ++ e.position.toText ++ ": " ++ e.fault.message

end SyntaxError

end Flowchart
