import Flowchart.Json.Basic

/-!
Values that can be read to their last part, and the numbers among them, which are those that have a
double. A number is taken as a significand of 64 bits and a power of ten, each is rounded to the 53
bits of a double, and their product has to stay below the point where doubles end. Digits that find no
place in the significand only count for the power.
-/
namespace Flowchart.Json

/-- `n` divided by `2 ^ shift` and rounded, a half to the even neighbour. -/
def roundShift (n shift : Nat) : Nat :=
  let whole := n >>> shift
  let left := 2 * (n - (whole <<< shift))
  let unit := 1 <<< shift
  if unit < left ∨ unit = left ∧ whole % 2 = 1 then whole + 1 else whole

/-- `n` rounded to 53 significant bits. -/
def roundDouble (n : Nat) : Nat :=
  let shift := n.log2 - 52
  roundShift n shift <<< shift

/-- The first integer that rounds to no double: half a unit past the largest one. -/
def doubleEnd : Nat := (1 <<< 1024) - (1 <<< 970)

/-- The largest power of ten that has a double. -/
def maxPower : Nat := 308

/-- Takes digits into a significand as long as it stays in 64 bits. -/
def takeDigits (significand : Nat) : Text → Nat × Text
  | [] => (significand, [])
  | c :: rest =>
    let next := significand * 10 + (c.toNat - '0'.toNat)
    if next ≤ Text.maxNatural then takeDigits next rest else (significand, c :: rest)

/-- The power of ten that the end of a number's spelling names. -/
def spelledPower : Text → Int
  | [] => 0
  | [_] => 0
  | _ :: sign :: digits =>
    if sign = '-' then -(Text.decimalValue digits : Int)
    else if sign = '+' then Text.decimalValue digits
    else Text.decimalValue (sign :: digits)

/-- The digits after a point, and what follows them. -/
def spelledFraction : Text → Text × Text
  | '.' :: rest => (rest.takeWhile Char.isDigit, rest.dropWhile Char.isDigit)
  | rest => ([], rest)

def scaledHasDouble (significand : Nat) (power : Int) : Bool :=
  significand = 0 || power < 0 ||
    (power ≤ maxPower &&
      roundDouble significand * roundDouble (Nat.pow 10 power.toNat) < doubleEnd)

def hasDouble (spelling : Text) : Bool :=
  let digits := spelling.dropWhile (· == '-')
  let (fraction, rest) := spelledFraction (digits.dropWhile Char.isDigit)
  let (whole, uncounted) := takeDigits 0 (digits.takeWhile Char.isDigit)
  let (significand, dropped) := takeDigits whole fraction
  scaledHasDouble significand
    (spelledPower rest + uncounted.length - (fraction.length - dropped.length))

mutual

/-- Whether a value can be read to its last part: nothing in it is unreadable, and every number has
a double. -/
def isReadable : Json → Bool
  | .number spelling => hasDouble spelling
  | .array items => areReadable items
  | .object fields => haveReadable fields
  | .unreadable => false
  | _ => true

def areReadable : List Json → Bool
  | [] => true
  | item :: rest => isReadable item && areReadable rest

def haveReadable : List (Text × Json) → Bool
  | [] => true
  | (_, value) :: rest => isReadable value && haveReadable rest

end

end Flowchart.Json
