import Flowchart.Position.Basic
import Flowchart.Text.Blank
import Flowchart.Text.Numeric

/-!
Expressions are kept as text. Only their outermost shape is known: a check around another
expression, a call with its arguments, or anything else.
-/
namespace Flowchart

/-- The piece of a file that a part of the tree covers. -/
structure Extent where
  range : SourceRange
  source : Text
deriving DecidableEq, Repr, Inhabited

/-- What a call invokes: a function by its name and, if given, the name its module goes by, a remote
method of a client, or a resource method with its path. -/
inductive Callee where
  | function (qualifier : Option Text) (name : Text)
  | remote (target method : Text)
  | resource (target path method : Text)
deriving DecidableEq, Repr, Inhabited

/-- An expression by its outermost shape. -/
inductive Expr where
  | check (extent : Extent) (panics : Bool) (inner : Expr)
  | call (extent : Extent) (callee : Callee) (args : List Expr)
  | other (extent : Extent)
deriving Repr, Inhabited

namespace Expr

def extent : Expr → Extent
  | check extent _ _ => extent
  | call extent _ _ => extent
  | other extent => extent

def range (e : Expr) : SourceRange := e.extent.range

def source (e : Expr) : Text := e.extent.source

def unchecked : Expr → Expr
  | check _ _ inner => inner.unchecked
  | e => e

/-- No closing parenthesis before the last character brings the depth to zero. Closing parentheses
without a partner are ignored. -/
def wrapsWhole (depth : Nat) : Text → Bool
  | [] => true
  | c :: rest =>
    if c = '(' then wrapsWhole (depth + 1) rest
    else if c = ')' then (depth - 1 ≠ 0 || rest.isEmpty) && wrapsWhole (depth - 1) rest
    else wrapsWhole depth rest

/-- A text without the one pair of parentheses that encloses all of it, if there is such a pair. -/
def stripParens (text : Text) : Text :=
  if text.head? = some '(' ∧ text.getLast? = some ')' ∧ wrapsWhole 0 text then
    Text.trim text.tail.dropLast
  else text

def unparenthesized (e : Expr) : Text := stripParens (Text.trim e.source)

/-- The name and the value of an argument written as a name, an equals sign and a value. -/
def namedArgument? (e : Expr) : Option (Text × Text) := do
  let (name, value) ← Text.cut '=' (Text.trim e.source)
  let name := Text.trimEnd name
  if Text.isWord name ∧ value.head? ≠ some '=' ∧ value.head? ≠ some '>' then
    some (name, Text.trim value)
  else none

end Expr

end Flowchart
