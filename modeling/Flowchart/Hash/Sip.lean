/-!
SipHash with one round per block and three at the end, both keys zero, over a list of bytes. Words
are read and written with the low byte first.
-/
namespace Flowchart.Hash

structure SipState where
  v0 : UInt64
  v1 : UInt64
  v2 : UInt64
  v3 : UInt64
deriving DecidableEq, Repr, Inhabited

namespace SipState

/-- The state for two zero keys. -/
def start : SipState where
  v0 := 0x736f6d6570736575
  v1 := 0x646f72616e646f6d
  v2 := 0x6c7967656e657261
  v3 := 0x7465646279746573

def rotateLeft (x : UInt64) (amount : UInt64) : UInt64 := (x <<< amount) ||| (x >>> (64 - amount))

def round (s : SipState) : SipState :=
  let v0 := s.v0 + s.v1
  let v1 := rotateLeft s.v1 13 ^^^ v0
  let v0 := rotateLeft v0 32
  let v2 := s.v2 + s.v3
  let v3 := rotateLeft s.v3 16 ^^^ v2
  let v0 := v0 + v3
  let v3 := rotateLeft v3 21 ^^^ v0
  let v2 := v2 + v1
  let v1 := rotateLeft v1 17 ^^^ v2
  let v2 := rotateLeft v2 32
  ⟨v0, v1, v2, v3⟩

def absorb (s : SipState) (block : UInt64) : SipState :=
  let mixed := round { s with v3 := s.v3 ^^^ block }
  { mixed with v0 := mixed.v0 ^^^ block }

def finish (s : SipState) : UInt64 :=
  let s := round (round (round { s with v2 := s.v2 ^^^ 0xff }))
  s.v0 ^^^ s.v1 ^^^ s.v2 ^^^ s.v3

end SipState

/-- The word whose bytes are listed from the low end. -/
def wordOfBytes : List UInt8 → UInt64
  | [] => 0
  | b :: rest => b.toUInt64 ||| (wordOfBytes rest <<< 8)

/-- Full blocks are absorbed one by one; the last block holds what is left and the length. -/
def sipBlocks (length : Nat) (s : SipState) : List UInt8 → UInt64
  | b0 :: b1 :: b2 :: b3 :: b4 :: b5 :: b6 :: b7 :: rest =>
    sipBlocks length (s.absorb (wordOfBytes [b0, b1, b2, b3, b4, b5, b6, b7])) rest
  | rest => (s.absorb (wordOfBytes rest ||| (length.toUInt64 <<< 56))).finish

def sip (bytes : List UInt8) : UInt64 := sipBlocks bytes.length .start bytes

/-- The eight bytes of a number modulo 2^64, low byte first. -/
def wordBytes (n : Nat) : List UInt8 :=
  (List.range 8).map fun i => (n >>> (8 * i)).toUInt8

end Flowchart.Hash
