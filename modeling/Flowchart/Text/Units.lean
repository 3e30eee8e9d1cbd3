import Flowchart.Text.Basic

/-!
The size of a text in units other than characters: columns count UTF-16 code units, byte offsets
count the bytes of UTF-8. A byte offset is a boundary if a character starts there or the text ends.
-/
namespace Flowchart.Text

/-- The number of UTF-16 code units of a character. -/
def units16 (c : Char) : Nat := if c.toNat < 0x10000 then 1 else 2

def length16 : Text → Nat
  | [] => 0
  | c :: rest => units16 c + length16 rest

def byteLength : Text → Nat
  | [] => 0
  | c :: rest => c.utf8Size + byteLength rest

/-- The characters that end at or before a byte offset. -/
def takeBytes (offset : Nat) : Text → Text
  | [] => []
  | c :: rest =>
    if offset < c.utf8Size then [] else c :: takeBytes (offset - c.utf8Size) rest

/-- The text without the characters that end at or before a byte offset. -/
def dropBytes (offset : Nat) : Text → Text
  | [] => []
  | c :: rest =>
    if offset < c.utf8Size then c :: rest else dropBytes (offset - c.utf8Size) rest

def isBoundary (text : Text) (offset : Nat) : Bool := byteLength (takeBytes offset text) = offset

/-- The last boundary at or before an offset. -/
def boundaryBefore (text : Text) : Nat → Nat
  | 0 => 0
  | offset + 1 =>
    if text.isBoundary (offset + 1) then offset + 1 else boundaryBefore text offset

/-- The piece of the text between two offsets, if both are boundaries. -/
def slice? (text : Text) (start stop : Nat) : Option Text :=
  if start ≤ stop ∧ text.isBoundary start ∧ text.isBoundary stop then
    some (dropBytes start (takeBytes stop text))
  else none

/-- The text with another piece in the place of what stands between two offsets. -/
def replaceBytes (text : Text) (start stop : Nat) (piece : Text) : Text :=
  takeBytes start text ++ (piece ++ dropBytes stop text)

end Flowchart.Text
