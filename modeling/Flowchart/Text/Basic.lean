/-!
Text is a list of characters, so that scanning, slicing and splicing are list operations. A string
literal stands for its characters. Here are also the cuts that names and qualified names need.
-/
namespace Flowchart

/-- Program text, names and messages: the list of their characters. -/
abbrev Text := List Char

instance : Coe String Text := ⟨String.toList⟩

namespace Text

def ofNat (n : Nat) : Text := Nat.toDigits 10 n

def decimalValue (digits : Text) : Nat :=
  digits.foldl (fun n c => 10 * n + (c.toNat - '0'.toNat)) 0

/-- The largest number that counts, lines and columns may have. -/
def maxNatural : Nat := 0xffffffffffffffff

/-- The parts before and after the first `mark`. -/
def cut (mark : Char) : Text → Option (Text × Text)
  | [] => none
  | c :: rest =>
    if c = mark then some ([], rest)
    else (cut mark rest).map fun (before, after) => (c :: before, after)

/-- The parts before and after the last `mark`. -/
def cutLast (mark : Char) (text : Text) : Option (Text × Text) :=
  (cut mark text.reverse).map fun (after, before) => (before.reverse, after.reverse)

/-- What follows the last `mark`, or the whole text when there is none. -/
def afterLast (mark : Char) (text : Text) : Text :=
  (text.reverse.takeWhile (· ≠ mark)).reverse

/-- The rest of a text that begins with `head`. -/
def stripStart? : (head text : Text) → Option Text
  | [], text => some text
  | _ :: _, [] => none
  | h :: head, c :: text => if h = c then stripStart? head text else none

/-- A number up to the largest one, written in digits with a plus sign or none before them. -/
def natural? (text : Text) : Option Nat :=
  let digits := (stripStart? "+" text).getD text
  if !digits.isEmpty && digits.all Char.isDigit && decimalValue digits ≤ maxNatural then
    some (decimalValue digits)
  else none

/-- The text without its last character, when that is `mark`. -/
def stripEnd? (mark : Char) (text : Text) : Option Text :=
  if text.getLast? = some mark then some text.dropLast else none

/-- Equality up to the case of the letters A to Z. -/
def sameIgnoringCase (a b : Text) : Bool :=
  a.map Char.toLower == b.map Char.toLower

def slice (text : Text) (start stop : Nat) : Text :=
  (text.drop start).take (stop - start)

end Text

end Flowchart
