import Flowchart.Position.Basic
import Flowchart.Text.Units

/-!
The position that a piece of text ends at, and the table of line starts that takes byte offsets to
positions and back. A line ends at its line feed.
-/
namespace Flowchart

namespace Position

def step (p : Position) (c : Char) : Position :=
  if c = '\n' then ⟨p.line + 1, 0⟩ else ⟨p.line, p.column + Text.units16 c⟩

/-- The position after a stretch of text that starts at `p`. -/
def after (p : Position) (text : Text) : Position := text.foldl step p

end Position

/-- The byte offsets at which the lines of a text start, and the length of the text in bytes. -/
structure LineIndex where
  starts : List Nat
  length : Nat
deriving DecidableEq, Repr, Inhabited

namespace LineIndex

/-- The offsets behind the line feeds of a text that starts at the offset `here`. -/
def startsAfter (here : Nat) : Text → List Nat
  | [] => []
  | c :: rest =>
    let next := here + c.utf8Size
    if c = '\n' then next :: startsAfter next rest else startsAfter next rest

def ofText (text : Text) : LineIndex := ⟨0 :: startsAfter 0 text, Text.byteLength text⟩

def lineCount (index : LineIndex) : Nat := index.starts.length

/-- Where a line ends: before the line feed, or with the text. -/
def lineEnd (index : LineIndex) (line : Nat) : Nat :=
  match index.starts[line + 1]? with
  | some next => next - 1
  | none => index.length

/-- Looks for a column in the rest of a line that stands at the offset `here` after `units` units. A
column inside of a surrogate pair is not there. -/
def columnOffset? (column stop : Nat) (units here : Nat) : Text → Option Nat
  | [] => if units = column then some stop else none
  | c :: rest =>
    if units = column then some here
    else
      let units := units + Text.units16 c
      if column < units then none
      else columnOffset? column stop units (here + c.utf8Size) rest

/-- The byte offset of a position, unless it lies outside of the text. -/
def offset? (index : LineIndex) (text : Text) (p : Position) : Option Nat := do
  let start ← index.starts[p.line]?
  let stop := index.lineEnd p.line
  let line ← text.slice? start stop
  columnOffset? p.column stop 0 start line

/-- The line with the offset in it: the last one that does not start behind it. -/
def lineOf (index : LineIndex) (offset : Nat) : Nat :=
  (index.starts.takeWhile (· ≤ offset)).length - 1

/-- The position of a byte offset. One past the end is taken for the end, and one inside of a
character for the start of the character. -/
def position (index : LineIndex) (text : Text) (offset : Nat) : Position :=
  let offset := text.boundaryBefore (min offset index.length)
  let line := index.lineOf offset
  let start := (index.starts[line]?).getD 0
  ⟨line, ((text.takeBytes offset).dropBytes start).length16⟩

end LineIndex

namespace Text

/-- The byte offset of a position, unless it lies outside of the text. -/
def offsetAt? (text : Text) (p : Position) : Option Nat := (LineIndex.ofText text).offset? text p

/-- The position of a byte offset. -/
def positionAt (text : Text) (offset : Nat) : Position :=
  (LineIndex.ofText text).position text offset

end Text

end Flowchart
