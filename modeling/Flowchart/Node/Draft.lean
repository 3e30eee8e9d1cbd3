import Flowchart.Error
import Flowchart.Node.Identity

/-!
Drafts: nodes under construction. Building a draft gives the node its identity; it needs a kind
and may not have both children and branches.
-/
namespace Flowchart

structure Draft where
  kind : Option NodeKind := none
  label : Option Text := none
  range : Option SourceRange := none
  source : Text := []
  properties : Properties := []
  children : List Node := []
  branches : List Node := []
  remarks : List Remark := []
  flags : Flags := {}
  returning : Bool := false
deriving Repr, Inhabited

namespace Draft

def withKind (draft : Draft) (kind : NodeKind) : Draft := { draft with kind := some kind }

def withLabel (draft : Draft) (label : Text) : Draft := { draft with label := some label }

def withRange (draft : Draft) (range : SourceRange) : Draft := { draft with range := some range }

def withSource (draft : Draft) (source : Text) : Draft := { draft with source := source }

def withProperty (draft : Draft) (key : Text) (property : Property) : Draft :=
  { draft with properties := Properties.insert key property draft.properties }

def withProperties (draft : Draft) (properties : Properties) : Draft :=
  { draft with properties := Properties.insertAll draft.properties properties }

def withChildren (draft : Draft) (nodes : List Node) : Draft :=
  { draft with children := draft.children ++ nodes }

def withBranch (draft : Draft) (branch : Node) : Draft :=
  { draft with branches := draft.branches ++ [branch] }

def withRemark (draft : Draft) (remark : Remark) : Draft :=
  { draft with remarks := draft.remarks ++ [remark] }

def withFlag (draft : Draft) (flag : Flags) : Draft :=
  { draft with flags := draft.flags.insert flag }

def withoutFlag (draft : Draft) (flag : Flags) : Draft :=
  { draft with flags := draft.flags.remove flag }

def asReturning (draft : Draft) : Draft := { draft with returning := true }

def build (draft : Draft) : Except FlowError Node :=
  match draft.kind with
  | none => .error (.incompleteNode "kind")
  | some kind =>
    if !draft.children.isEmpty && !draft.branches.isEmpty then .error (.conflictingShape kind)
    else
      let label := draft.label.getD kind.label
      .ok
        { id := Node.identity kind label draft.range draft.properties
          kind := kind
          label := label
          range := draft.range
          source := draft.source
          properties := draft.properties
          children := draft.children
          branches := draft.branches
          remarks := draft.remarks
          returning := draft.returning
          flags := draft.flags }

end Draft

namespace Node

/-- A branch that is not in any document. -/
def branchOf (label : Text) (properties : Properties) (children : List Node) :
    Except FlowError Node :=
  ((((({} : Draft).withKind .block).withLabel label).withProperties properties).withChildren
    children).build

/-- Adds a child to the branch of a label, making that branch if there is none. -/
def pushToBranch (node : Node) (label : Text) (child : Node) : Except FlowError Node :=
  match pushInto label child node.branches with
  | some branches => .ok { node with branches := branches }
  | none => do
    let branch ← branchOf label [] [child]
    pure { node with branches := node.branches ++ [branch] }

end Node

end Flowchart
