import Flowchart.TypeDesc.Basic

/-!
Symbols: what a name in the source stands for.
-/
namespace Flowchart

inductive SymbolKind where
  | var
  | parameter
  | function
  | method
  | remoteMethod
  | resourceMethod
  | classDef
  | typeDef
  | constant
deriving DecidableEq, Repr, Inhabited

namespace SymbolKind

def isMethod : SymbolKind → Bool
  | method => true
  | remoteMethod => true
  | resourceMethod => true
  | _ => false

end SymbolKind

/-- A name with its kind, the module that defines it, and its type. -/
structure Symbol where
  kind : SymbolKind
  module : Option ModuleName := none
  name : Text
  type : Option TypeDesc := none
deriving Repr, Inhabited

namespace Symbol

def params (symbol : Symbol) : List (Parameter TypeDesc) :=
  ((symbol.type.bind TypeDesc.signature?).map Prod.fst).getD []

def returns? (symbol : Symbol) : Option TypeDesc :=
  (symbol.type.bind TypeDesc.signature?).map Prod.snd

end Symbol

end Flowchart
