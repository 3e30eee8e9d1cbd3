import Flowchart.Position.Locate

/-!
Tokens of the source language. A token keeps its text and the marks of its two ends; a string
literal keeps its quotes and a comment its slashes, so no two classes share a text that the
grammar asks for.
-/
namespace Flowchart

/-- A place in a text: the number of characters before it, and its position. -/
structure Mark where
  index : Nat := 0
  position : Position := {}
deriving DecidableEq, Repr, Inhabited

namespace Mark

def after (mark : Mark) (text : Text) : Mark :=
  ⟨mark.index + text.length, mark.position.after text⟩

end Mark

inductive TokenClass where
  | word
  | number
  | quoted
  | symbol
  | comment
deriving DecidableEq, Repr, Inhabited

/-- A piece of text of one class. -/
structure Token where
  cls : TokenClass
  text : Text
  start : Mark
  stop : Mark
deriving DecidableEq, Repr, Inhabited

namespace Token

def is (token : Token) (text : Text) : Bool := token.text = text

def isWord (token : Token) : Bool := token.cls = .word

def isNumber (token : Token) : Bool := token.cls = .number

def isComment (token : Token) : Bool := token.cls = .comment

def opens (token : Token) : Bool := token.is "(" || token.is "[" || token.is "\x7b"

def closes (token : Token) : Bool := token.is ")" || token.is "]" || token.is "\x7d"

end Token

end Flowchart
