import Flowchart.Edit.Path
import Flowchart.Error
import Flowchart.Position.Locate

/-!
Text edits and how they are applied: all of them or none. Edits are given by spans of the text as
it is, must lie in it and may not overlap; insertions at one place keep their order.
-/
namespace Flowchart

structure TextEdit where
  span : Span
  newText : Text
deriving DecidableEq, Repr, Inhabited

/-- The edits of files, in the order of their paths, and the modules that the edits import. -/
structure SourceEdits where
  files : List (Text × List TextEdit) := []
  imports : List Text := []
deriving DecidableEq, Repr, Inhabited

namespace SourceEdits

/-- Puts the edits of a file in: in the place of those of the same path, or by the order of paths.
-/
def insertFile (path : Text) (edits : List TextEdit) :
    List (Text × List TextEdit) → List (Text × List TextEdit)
  | [] => [(path, edits)]
  | (other, held) :: rest =>
    match Path.order path other with
    | .lt => (path, edits) :: (other, held) :: rest
    | .eq => (other, edits) :: rest
    | .gt => (other, held) :: insertFile path edits rest

def forFile (edits : SourceEdits) (path : Text) : List TextEdit :=
  ((edits.files.find? fun file => Path.order file.1 path == .eq).map Prod.snd).getD []

def isEmpty (edits : SourceEdits) : Bool := edits.files.all fun file => file.2.isEmpty

end SourceEdits

namespace TextEdit

def insertion (p : Position) (newText : Text) : TextEdit := ⟨.point p, newText⟩

/-- An edit by the byte offsets of its ends, with its place among the edits. -/
structure Resolved where
  start : Nat
  stop : Nat
  place : Nat
  newText : Text
deriving DecidableEq, Repr, Inhabited

namespace Resolved

/-- The order of application: by start, then by end, then by place. -/
def precedes (a b : Resolved) : Bool :=
  a.start < b.start ||
    (a.start = b.start && (a.stop < b.stop || (a.stop = b.stop && a.place ≤ b.place)))

end Resolved

def resolve (index : LineIndex) (text : Text) (edit : TextEdit) (place : Nat) :
    Except EditFault Resolved :=
  match index.offset? text edit.span.start, index.offset? text edit.span.stop with
  | some start, some stop =>
    if stop < start then .error (.reversed edit.span) else .ok ⟨start, stop, place, edit.newText⟩
  | _, _ => .error (.outside edit.span)

def resolveAll (text : Text) (edits : List TextEdit) : Except EditFault (List Resolved) :=
  let index := LineIndex.ofText text
  edits.zipIdx.mapM fun (edit, place) => resolve index text edit place

def overlap? : List Resolved → Option (Resolved × Resolved)
  | [] => none
  | [_] => none
  | first :: second :: rest =>
    if second.start < first.stop then some (first, second) else overlap? (second :: rest)

/-- Makes edits from the last one to the first, so that the offsets of those still to come stay
right. -/
def replaceAll (text : Text) (sorted : List Resolved) : Text :=
  sorted.reverse.foldl (fun text edit => text.replaceBytes edit.start edit.stop edit.newText) text

def apply (text : Text) (edits : List TextEdit) : Except EditFault Text := do
  let resolved ← resolveAll text edits
  let sorted := resolved.mergeSort Resolved.precedes
  match overlap? sorted with
  | some (first, second) => .error (.overlap first.place second.place)
  | none => pure (replaceAll text sorted)

end TextEdit

end Flowchart
