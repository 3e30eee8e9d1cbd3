import Flowchart.Node.Basic

/-!
The outline of a diagram: one line per node under the lines of a tree, with its values, its
position and its remarks.
-/
namespace Flowchart.Node

def severityName : Severity → Text
  | .error => "Error"
  | .warning => "Warning"
  | .info => "Info"
  | .hint => "Hint"

def valueList (properties : Properties) : Text :=
  let shown := properties.filter fun entry => !entry.2.isBlank
  let values : List Text := shown.map fun entry => entry.1 ++ "=" ++ entry.2.value
  if values.isEmpty then [] else " [" ++ List.intercalate ", " values ++ "]"

def positionMark : Option SourceRange → Text
  | some range => " @" ++ range.start.toText
  | none => []

def suggestionMark : Option Bool → Text
  | some true => " (suggested)"
  | _ => []

/-- Kind, label, values that are not blank, position, and whether the node is suggested. -/
def headline (node : Node) : Text :=
  node.kind.name ++ " '" ++ node.label ++ "'" ++ valueList node.properties ++
    positionMark node.range ++ suggestionMark node.suggested

def branchMark (isLast : Bool) : Text := if isLast then ("└── " : Text) else "├── "

/-- The tree lines to the left of what hangs under a node. -/
def under (left : Text) (isLast : Bool) : Text :=
  left ++ (if isLast then ("    " : Text) else "│   ")

def remarkLine (left : Text) (remark : Remark) : Text :=
  left ++ "  ! " ++ severityName remark.severity ++ ": " ++ remark.message ++ "\n"

mutual

/-- The lines of a node and of what hangs under it. -/
def outlineAt (left : Text) (isLast : Bool) : Node → Text
  | node@⟨_, _, _, _, _, _, children, branches, remarks, _, _, _⟩ =>
    left ++ (branchMark isLast ++ (node.headline ++ ('\n' ::
      (remarks.flatMap (remarkLine (under left isLast)) ++
        (outlineAll (under left isLast) branches.isEmpty children ++
          outlineAll (under left isLast) true branches)))))

/-- The lines of siblings. The last of them ends the tree lines if no more nodes follow. -/
def outlineAll (left : Text) (ends : Bool) : List Node → Text
  | [] => []
  | [node] => outlineAt left ends node
  | node :: rest => outlineAt left false node ++ outlineAll left ends rest

end

def outline (nodes : List Node) : Text := outlineAll [] true nodes

end Flowchart.Node
