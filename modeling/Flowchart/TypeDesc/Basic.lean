import Flowchart.ModuleName

/-!
Types of the source language: the basic types, errors and named types of a module, and the types
built from others.
-/
namespace Flowchart

inductive BasicType where
  | nil
  | boolean
  | int
  | float
  | decimal
  | string
  | byte
  | json
  | any
  | anydata
deriving DecidableEq, Repr, Inhabited

/-- A parameter of a function. A defaultable one may be left out of a call. -/
structure Parameter (τ : Type) where
  name : Text
  type : τ
  defaultable : Bool := false
deriving DecidableEq, Repr, Inhabited

/-- A type. An error without a name is the error type itself. -/
inductive TypeDesc where
  | basic (type : BasicType)
  | error (module : Option ModuleName) (name : Option Text)
  | named (module : Option ModuleName) (name : Text)
  | array (element : TypeDesc) (size : Option Nat)
  | map (value : TypeDesc)
  | stream (value : TypeDesc)
  | optional (inner : TypeDesc)
  | union (members : List TypeDesc)
  | tuple (members : List TypeDesc)
  | function (params : List (Parameter TypeDesc)) (returns : TypeDesc)
deriving Repr

instance : Inhabited TypeDesc := ⟨.basic .nil⟩

namespace BasicType

/-- The basic types with their names in source text. -/
def names : List (Text × BasicType) :=
  [("()", nil), ("boolean", boolean), ("int", int), ("float", float), ("decimal", decimal),
    ("string", string), ("byte", byte), ("json", json), ("any", any), ("anydata", anydata)]

def name : BasicType → Text
  | nil => "()"
  | boolean => "boolean"
  | int => "int"
  | float => "float"
  | decimal => "decimal"
  | string => "string"
  | byte => "byte"
  | json => "json"
  | any => "any"
  | anydata => "anydata"

end BasicType

namespace TypeDesc

/-- The types that a single name stands for everywhere. -/
def builtin? (name : Text) : Option TypeDesc :=
  if name = "nil" then some (.basic .nil)
  else if name = "error" then some (.error none none)
  else (BasicType.names.lookup name).map .basic

def basicName? : TypeDesc → Option Text
  | basic type => some type.name
  | _ => none

def isError : TypeDesc → Bool
  | error .. => true
  | _ => false

def isNil : TypeDesc → Bool
  | basic .nil => true
  | _ => false

/-- An error, or a union with an error among its members. -/
def canFail : TypeDesc → Bool
  | error .. => true
  | union members => members.any isError
  | _ => false

def module? : TypeDesc → Option ModuleName
  | named module _ => module
  | error module _ => module
  | _ => none

def signature? : TypeDesc → Option (List (Parameter TypeDesc) × TypeDesc)
  | function params returns => some (params, returns)
  | _ => none

mutual

/-- A literal for a fresh variable of a type. A union takes that of its first member. -/
def defaultValue : TypeDesc → Text
  | basic .boolean => "false"
  | basic .int => "0"
  | basic .byte => "0"
  | basic .float => "0.0"
  | basic .decimal => "0d"
  | basic .string => "\"\""
  | array .. => "[]"
  | tuple _ => "[]"
  | map _ => "\x7b\x7d"
  | error .. => "error(\"\")"
  | union members => firstDefault members
  | _ => "()"

def firstDefault : List TypeDesc → Text
  | [] => "()"
  | member :: _ => defaultValue member

end

end TypeDesc

end Flowchart
