import Flowchart.Text.Basic

/-!
JSON values. Numbers keep their spelling and objects keep the order and the repetitions of their
keys. A text may hold values that are well formed and still have no content, such as a string with
half of a surrogate pair. They can be passed over and nothing else.
-/
namespace Flowchart

inductive Json where
  | null
  | bool (value : Bool)
  | number (spelling : Text)
  | string (value : Text)
  | array (items : List Json)
  | object (fields : List (Text × Json))
  | unreadable
deriving Repr, Inhabited

namespace Json

def ofNat (n : Nat) : Json := .number (Text.ofNat n)

def ofOption {α : Type} (write : α → Json) : Option α → Json
  | none => .null
  | some value => write value

def ofList {α : Type} (write : α → Json) (items : List α) : Json := .array (items.map write)

mutual

def depth : Json → Nat
  | .array items => depths items + 1
  | .object fields => fieldDepths fields + 1
  | _ => 0

def depths : List Json → Nat
  | [] => 0
  | item :: rest => max (depth item) (depths rest)

def fieldDepths : List (Text × Json) → Nat
  | [] => 0
  | (_, value) :: rest => max (depth value) (fieldDepths rest)

end

/-- The library that texts are read and written with: it has a reader of texts, two written forms of
a value, and it can hold some values apart from their texts. -/
structure Library where
  read? : Text → Option Json
  compact : Json → Text
  pretty : Json → Text
  holds : Json → Bool

end Json

end Flowchart
