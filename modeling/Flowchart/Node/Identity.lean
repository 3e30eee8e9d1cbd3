import Flowchart.Hash.Sip
import Flowchart.Node.Basic

/-!
Identities of nodes: sixteen hexadecimal digits of a hash. A node in a document is identified by
its kind and range, another one by its kind, its label and the keys and values of its properties.
-/
namespace Flowchart.Node

/-- The UTF-8 bytes of a text and an end mark that occurs in no text. -/
def textBytes (text : Text) : List UInt8 := text.flatMap String.utf8EncodeChar ++ [0xff]

def rangeBytes (range : SourceRange) : List UInt8 :=
  textBytes range.file ++ Hash.wordBytes range.start.line ++ Hash.wordBytes range.start.column ++
    Hash.wordBytes range.stop.line ++ Hash.wordBytes range.stop.column

def identityBytes (kind : NodeKind) (label : Text) (range : Option SourceRange)
    (properties : Properties) : List UInt8 :=
  Hash.wordBytes kind.number ++
    match range with
    | some range => rangeBytes range
    | none =>
      textBytes label ++
        properties.flatMap fun entry => textBytes entry.1 ++ textBytes entry.2.value

def hexText (word : UInt64) : Text :=
  let digits := Nat.toDigits 16 word.toNat
  List.replicate (16 - digits.length) '0' ++ digits

def identity (kind : NodeKind) (label : Text) (range : Option SourceRange)
    (properties : Properties) : Text :=
  hexText (Hash.sip (identityBytes kind label range properties))

end Flowchart.Node
