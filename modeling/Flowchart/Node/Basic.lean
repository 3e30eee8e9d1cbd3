import Flowchart.Diagnostic.Basic
import Flowchart.Node.Flags
import Flowchart.Node.Key
import Flowchart.Node.Kind
import Flowchart.Node.Property

/-!
Nodes of a diagram. A node stands for a statement; compound statements have branches, which are
nodes whose children are the statements of a block. A node without a range is not in any document
yet.
-/
namespace Flowchart

/-- One node of a diagram. `suggested` tells whether the node is new since the last step, once
that has been decided; `source` is empty for a node that is not in the document. -/
structure Node where
  id : Text
  kind : NodeKind
  label : Text
  range : Option SourceRange := none
  source : Text := []
  properties : Properties := []
  children : List Node := []
  branches : List Node := []
  remarks : List Remark := []
  suggested : Option Bool := none
  returning : Bool := false
  flags : Flags := {}
deriving Repr, Inhabited

namespace Node

def property? (node : Node) (key : Text) : Option Property := Properties.get? node.properties key

def value? (node : Node) (key : Text) : Option Text := Properties.value? node.properties key

/-- The first branch of a label, whatever the case of its letters. -/
def branch? (node : Node) (label : Text) : Option Node :=
  node.branches.find? fun branch => Text.sameIgnoringCase branch.label label

def isLeaf (node : Node) : Bool := node.children.isEmpty && node.branches.isEmpty

def hasFlag (node : Node) (flag : Flags) : Bool := node.flags.contains flag

mutual

def mark (suggested : Bool) : Node → Node
  | ⟨id, kind, label, range, source, properties, children, branches, remarks, _, returning,
      flags⟩ =>
    { id, kind, label, range, source, properties
      children := markAll suggested children
      branches := markAll suggested branches
      remarks
      suggested := some suggested
      returning, flags }

def markAll (suggested : Bool) : List Node → List Node
  | [] => []
  | node :: rest => mark suggested node :: markAll suggested rest

end

mutual

/-- A node and all nodes below it, each before its children and these before its branches. -/
def subtree : Node → List Node
  | node@⟨_, _, _, _, _, _, children, branches, _, _, _, _⟩ =>
    node :: (flatten children ++ flatten branches)

/-- All nodes of a list and those below them, in the same order. -/
def flatten : List Node → List Node
  | [] => []
  | node :: rest => subtree node ++ flatten rest

end

/-- Changes the value of a property, or adds an expression with that value. -/
def setValue (node : Node) (key value : Text) : Node :=
  { node with properties := Properties.setValue key value node.properties }

def removeProperty (node : Node) (key : Text) : Node :=
  { node with properties := Properties.erase key node.properties }

/-- Adds a child to the first branch of a label, if there is one. -/
def pushInto (label : Text) (child : Node) : List Node → Option (List Node)
  | [] => none
  | branch :: rest =>
    if Text.sameIgnoringCase branch.label label then
      some ({ branch with children := branch.children ++ [child] } :: rest)
    else (pushInto label child rest).map (branch :: ·)

/-- Takes away all branches with exactly the given label. -/
def dropBranch (node : Node) (label : Text) : Node :=
  { node with branches := node.branches.filter fun branch => branch.label ≠ label }

end Node

end Flowchart
