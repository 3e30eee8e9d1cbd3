import Flowchart.Text.Basic

/-!
Paths of files, compared part by part. Repeated slashes and points in the middle do not count, and
the names of files are ordered character by character.
-/
namespace Flowchart.Path

inductive Part where
  | root
  | here
  | up
  | named (name : Text)
deriving DecidableEq, Repr, Inhabited

def splitSlashes : Text → List Text
  | [] => [[]]
  | c :: rest =>
    if c = '/' then [] :: splitSlashes rest
    else match splitSlashes rest with
      | [] => [[c]]
      | part :: more => (c :: part) :: more

/-- The part that a piece between slashes stands for. A point counts only at the start of a path. -/
def partOf? (atStart : Bool) (piece : Text) : Option Part :=
  if piece.isEmpty then none
  else if piece = "." then if atStart then some .here else none
  else if piece = ".." then some .up
  else some (.named piece)

def parts (path : Text) : List Part :=
  match splitSlashes path with
  | [] => []
  | first :: rest =>
    let start := if first.isEmpty then
        if rest.isEmpty then none else some Part.root
      else partOf? true first
    start.toList ++ rest.filterMap (partOf? false)

def compareTexts : Text → Text → Ordering
  | [], [] => .eq
  | [], _ :: _ => .lt
  | _ :: _, [] => .gt
  | a :: s, b :: t => (compare a.toNat b.toNat).then (compareTexts s t)

def rank : Part → Nat
  | .root => 0
  | .here => 1
  | .up => 2
  | .named _ => 3

def compareParts : List Part → List Part → Ordering
  | [], [] => .eq
  | [], _ :: _ => .lt
  | _ :: _, [] => .gt
  | a :: s, b :: t =>
    let first := match a, b with
      | .named a, .named b => compareTexts a b
      | a, b => compare (rank a) (rank b)
    first.then (compareParts s t)

def order (a b : Text) : Ordering := compareParts (parts a) (parts b)

end Flowchart.Path
