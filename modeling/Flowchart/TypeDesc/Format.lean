import Flowchart.TypeDesc.Basic

/-!
The written form of a type. Parentheses stand where an inner type binds weaker than its place asks
for.
-/
namespace Flowchart.TypeDesc

/-- How tightly the written form of a type holds together, loosest first. -/
inductive Strength where
  | function
  | union
  | suffix
  | atom
deriving DecidableEq, Repr, Inhabited

namespace Strength

def rank : Strength → Nat
  | function => 0
  | union => 1
  | suffix => 2
  | atom => 3

end Strength

def strength : TypeDesc → Strength
  | function .. => .function
  | union _ => .union
  | array .. => .suffix
  | optional _ => .suffix
  | _ => .atom

/-- A name, with the qualifier of its module unless that is the current one. -/
def qualified (current module : Option ModuleName) (name : Text) : Text :=
  match module with
  | some module => if some module = current then name else module.qualifier ++ ":" ++ name
  | none => name

/-- The written form `body` of a type in a place that asks for the strength `place`. -/
def enclosed (place inner : Strength) (body : Text) : Text :=
  if inner.rank < place.rank then "(" ++ body ++ ")" else body

mutual

/-- The written form in a place that asks for the given strength. -/
def formatAt (current : Option ModuleName) (place : Strength) : TypeDesc → Text
  | basic type => type.name
  | error _ none => "error"
  | error module (some name) => qualified current module name
  | named module name => qualified current module name
  | array element size =>
    enclosed place .suffix
      (formatAt current .suffix element ++ "[" ++ ((size.map Text.ofNat).getD [] ++ "]"))
  | optional inner => enclosed place .suffix (formatAt current .suffix inner ++ "?")
  | map value => "map<" ++ formatAt current .function value ++ ">"
  | stream value => "stream<" ++ formatAt current .function value ++ ">"
  | union members =>
    enclosed place .union (List.intercalate "|" (formatEach current .union members))
  | tuple members =>
    "[" ++ List.intercalate ", " (formatEach current .function members) ++ "]"
  | function params (basic .nil) =>
    enclosed place .function
      ("function (" ++ List.intercalate ", " (formatParams current params) ++ ")")
  | function params returns =>
    enclosed place .function
      ("function (" ++ List.intercalate ", " (formatParams current params) ++ ") returns " ++
        formatAt current .function returns)

def formatEach (current : Option ModuleName) (place : Strength) : List TypeDesc → List Text
  | [] => []
  | type :: rest => formatAt current place type :: formatEach current place rest

def formatParams (current : Option ModuleName) : List (Parameter TypeDesc) → List Text
  | [] => []
  | ⟨_, type, _⟩ :: rest => formatAt current .function type :: formatParams current rest

end

def format (current : Option ModuleName) (type : TypeDesc) : Text := formatAt current .function type

/-- The written form without the errors of a union, unless nothing else is left. -/
def formatIgnoringErrors (current : Option ModuleName) : TypeDesc → Text
  | union members =>
    match members.filter fun member => !member.isError with
    | [] => format current (union members)
    | [single] => format current single
    | kept => List.intercalate "|" (formatEach current .union kept)
  | type => format current type

end Flowchart.TypeDesc
