/-!
Flags of a node: a set of eight bits, of which five have a meaning.
-/
namespace Flowchart

/-- A set of flags, one bit each. -/
structure Flags where
  bits : UInt8 := 0
deriving DecidableEq, Repr, Inhabited

namespace Flags

def checked : Flags := ⟨1⟩

def checkPanic : Flags := ⟨2⟩

def final : Flags := ⟨4⟩

def remote : Flags := ⟨8⟩

def resource : Flags := ⟨16⟩

def contains (flags other : Flags) : Bool := flags.bits &&& other.bits = other.bits

def insert (flags other : Flags) : Flags := ⟨flags.bits ||| other.bits⟩

def remove (flags other : Flags) : Flags := ⟨flags.bits &&& ~~~other.bits⟩

def isEmpty (flags : Flags) : Bool := flags.bits = 0

end Flags

end Flowchart
