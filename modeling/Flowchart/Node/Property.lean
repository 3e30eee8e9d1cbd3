import Flowchart.Text.Blank

/-!
Properties of a node: editable values under keys, kept in the order of their insertion. Replacing a
value keeps its place.
-/
namespace Flowchart

inductive ValueKind where
  | identifier
  | expression
  | type
  | string
  | flag
  | repeatable
  | view
deriving DecidableEq, Repr, Inhabited

/-- An editable value. `properties` holds the parts of a composite value and `imports` the modules
that the value needs. -/
structure Property where
  valueKind : ValueKind
  value : Text
  typeConstraint : Option Text := none
  editable : Bool := true
  optional : Bool := false
  placeholder : Option Text := none
  properties : List (Text × Property) := []
  imports : List Text := []
deriving Repr, Inhabited

/-- Properties under their keys, in the order of insertion. -/
abbrev Properties := List (Text × Property)

namespace Property

def ofExpression (value : Text) : Property := { valueKind := .expression, value := value }

def ofIdentifier (value : Text) : Property := { valueKind := .identifier, value := value }

def ofType (value : Text) : Property := { valueKind := .type, value := value }

def ofString (value : Text) : Property := { valueKind := .string, value := value }

def ofParts (parts : Properties) : Property :=
  { valueKind := .repeatable, value := [], properties := parts }

def withPlaceholder (property : Property) (placeholder : Text) : Property :=
  { property with placeholder := some placeholder }

def withImport (property : Property) (module : Text) : Property :=
  { property with imports := property.imports ++ [module] }

def readOnly (property : Property) : Property := { property with editable := false }

def isBlank (property : Property) : Bool := (Text.trim property.value).isEmpty

end Property

namespace Properties

/-- Puts a property under a key: in the place of the one that is there, or at the end. -/
def insert (key : Text) (property : Property) : Properties → Properties
  | [] => [(key, property)]
  | (other, held) :: rest =>
    if other = key then (other, property) :: rest else (other, held) :: insert key property rest

def insertAll (properties : Properties) (entries : List (Text × Property)) : Properties :=
  entries.foldl (fun held entry => insert entry.1 entry.2 held) properties

def ofEntries (entries : List (Text × Property)) : Properties := insertAll [] entries

def get? (properties : Properties) (key : Text) : Option Property :=
  (properties.find? (·.1 = key)).map Prod.snd

/-- The value under a key as it is written. -/
def value? (properties : Properties) (key : Text) : Option Text :=
  (get? properties key).map (·.value)

def contains (properties : Properties) (key : Text) : Bool := (get? properties key).isSome

def keys (properties : Properties) : List Text := properties.map Prod.fst

def erase (key : Text) : Properties → Properties
  | [] => []
  | (other, held) :: rest => if other = key then rest else (other, held) :: erase key rest

/-- Changes the value under a key, or adds an expression with that value. -/
def setValue (key value : Text) (properties : Properties) : Properties :=
  match get? properties key with
  | some property => insert key { property with value := value } properties
  | none => insert key (.ofExpression value) properties

end Properties

end Flowchart
