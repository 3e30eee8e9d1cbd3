import Flowchart.Text.Basic

/-!
Positions in a text are a line and a column, both from zero, ordered by line and then by column. A
span is a pair of positions; a source range adds the name of the file.
-/
namespace Flowchart

/-- A line and a column, both counted from zero. Columns count UTF-16 code units. -/
structure Position where
  line : Nat := 0
  column : Nat := 0
deriving DecidableEq, Repr, Inhabited

namespace Position

instance : LT Position where
  lt a b := a.line < b.line ∨ (a.line = b.line ∧ a.column < b.column)

instance : LE Position where
  le a b := a.line < b.line ∨ (a.line = b.line ∧ a.column ≤ b.column)

instance (a b : Position) : Decidable (a < b) :=
  inferInstanceAs (Decidable (a.line < b.line ∨ (a.line = b.line ∧ a.column < b.column)))

instance (a b : Position) : Decidable (a ≤ b) :=
  inferInstanceAs (Decidable (a.line < b.line ∨ (a.line = b.line ∧ a.column ≤ b.column)))

instance : Ord Position where
  compare a b := (compare a.line b.line).then (compare a.column b.column)

def toText (p : Position) : Text := Text.ofNat p.line ++ ":" ++ Text.ofNat p.column

end Position

/-- The stretch of text from one position to another, as text edits use it. -/
structure Span where
  start : Position := {}
  stop : Position := {}
deriving DecidableEq, Repr, Inhabited

namespace Span

def point (p : Position) : Span := ⟨p, p⟩

def isEmpty (span : Span) : Bool := span.start = span.stop

def toText (span : Span) : Text := span.start.toText ++ "-" ++ span.stop.toText

end Span

/-- A stretch of text in a named file. -/
structure SourceRange where
  file : Text
  start : Position
  stop : Position
deriving DecidableEq, Repr, Inhabited

namespace SourceRange

def span (range : SourceRange) : Span := ⟨range.start, range.stop⟩

/-- The other range lies in this one, ends included, and in the same file. -/
def contains (range other : SourceRange) : Bool :=
  range.file = other.file ∧ range.start ≤ other.start ∧ other.stop ≤ range.stop

def containsPosition (range : SourceRange) (p : Position) : Bool :=
  range.start ≤ p ∧ p ≤ range.stop

/-- The ranges share a position of one file. -/
def intersects (range other : SourceRange) : Bool :=
  range.file = other.file ∧ range.start ≤ other.stop ∧ other.start ≤ range.stop

/-- The range ends strictly before the other starts, whatever their files are. -/
def endsBefore (range other : SourceRange) : Bool := range.stop < other.start

/-- The ranges have the same ends, whatever their files are. -/
def sameSpan (range other : SourceRange) : Bool := range.span = other.span

def toText (range : SourceRange) : Text := range.file ++ ":" ++ range.span.toText

end SourceRange

end Flowchart
