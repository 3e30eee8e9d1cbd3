import Flowchart.Error
import Flowchart.Node.Basic

/-!
Handing diagnostics to the nodes of a diagram. The diagnostics are sorted, and one pass over the
nodes in document order moves along them without ever going back. A diagnostic goes to the node
with the same span, else to the innermost node around it; one that spans several nodes is shown on
each of the outermost nodes that it covers. Below a node that took a diagnostic for itself, only
exact matches are shown.
-/
namespace Flowchart

/-- The diagnostics to hand out, in their order. -/
structure Report where
  diagnostics : List Diagnostic
deriving Repr, Inhabited

/-- How many diagnostics are done with, and whether a node further out took one for itself. -/
structure Progress where
  index : Nat := 0
  annotated : Bool := false
deriving DecidableEq, Repr, Inhabited

namespace Progress

def next (progress : Progress) : Progress := { progress with index := progress.index + 1 }

/-- A node that has nodes below it took a diagnostic for itself. -/
def annotate (progress : Progress) (isLeaf : Bool) : Progress :=
  { progress with annotated := progress.annotated || !isLeaf }

/-- The remark for a diagnostic, unless a node further out took one for itself. -/
def unlessAnnotated (progress : Progress) (d : Diagnostic) : List Remark :=
  if progress.annotated then [] else [d.toRemark]

end Progress

namespace Report

/-- The first two neighbours of one file that are out of order. -/
def misplaced? : List Diagnostic → Option (Diagnostic × Diagnostic)
  | [] => none
  | [_] => none
  | first :: second :: rest =>
    if first.range.file = second.range.file ∧ second.range.start < first.range.start then
      some (first, second)
    else misplaced? (second :: rest)

/-- Keeps the errors, and the warnings if asked to. The kept ones must be sorted by their start
among neighbours of one file. -/
def ofDiagnostics (includeWarnings : Bool) (diagnostics : List Diagnostic) :
    Except FlowError Report :=
  let kept := diagnostics.filter fun d =>
    d.isError || (includeWarnings && d.severity = .warning)
  match misplaced? kept with
  | some (previous, current) =>
    .error (.unsortedDiagnostics previous.range.start current.range.start)
  | none => .ok ⟨kept⟩

/-- What a node takes when it is entered. Diagnostics of other files and ones that end before the
node are passed over. -/
def enterFrom (range : SourceRange) (isLeaf : Bool) (progress : Progress) :
    List Diagnostic → Progress × List Remark
  | [] => (progress, [])
  | d :: rest =>
    if d.range.file ≠ range.file ∨ d.range.stop < range.start then
      enterFrom range isLeaf progress.next rest
    else if d.range.sameSpan range then
      let (done, remarks) := enterFrom range isLeaf (progress.next.annotate isLeaf) rest
      (done, d.toRemark :: remarks)
    else if range.contains d.range then
      if isLeaf then
        let (done, remarks) := enterFrom range isLeaf progress.next rest
        (done, progress.unlessAnnotated d ++ remarks)
      else (progress, [])
    else if d.range.contains range then (progress.annotate isLeaf, progress.unlessAnnotated d)
    else (progress, [])

def enter (report : Report) (progress : Progress) (range : SourceRange) (isLeaf : Bool) :
    Progress × List Remark :=
  enterFrom range isLeaf progress (report.diagnostics.drop progress.index)

/-- What is left inside of a node after the nodes below it. -/
def leaveFrom (range : SourceRange) (progress : Progress) :
    List Diagnostic → Progress × List Remark
  | [] => (progress, [])
  | d :: rest =>
    if range.contains d.range && !d.range.sameSpan range then
      let (done, remarks) := leaveFrom range progress.next rest
      (done, progress.unlessAnnotated d ++ remarks)
    else (progress, [])

def leave (report : Report) (progress : Progress) (range : SourceRange) : Progress × List Remark :=
  leaveFrom range progress (report.diagnostics.drop progress.index)

/-- What lies inside of the parent and ends before its next child starts. -/
def betweenFrom (parent range : SourceRange) (progress : Progress) :
    List Diagnostic → Progress × List Remark
  | [] => (progress, [])
  | d :: rest =>
    if d.range.endsBefore range && parent.contains d.range then
      let (done, remarks) := betweenFrom parent range progress.next rest
      (done, progress.unlessAnnotated d ++ remarks)
    else (progress, [])

/-- What the parent takes before its next child is entered, if both are in the document. -/
def between (report : Report) (progress : Progress) (parent range : Option SourceRange) :
    Progress × List Remark :=
  match parent, range with
  | some parent, some range =>
    betweenFrom parent range progress (report.diagnostics.drop progress.index)
  | _, _ => (progress, [])

mutual

def attachNode (report : Report) (parent : Option SourceRange) (progress : Progress) :
    Node → Progress × Node
  | ⟨id, kind, label, range, source, properties, children, branches, remarks, suggested, returning,
      flags⟩ =>
    let isLeaf := children.isEmpty && branches.isEmpty
    let place := range.or parent
    let (entered, taken) := match range with
      | some range => report.enter progress range isLeaf
      | none => (progress, [])
    let (inner, children, fromChildren) := attachNodes report place entered children
    let (inner, branches, fromBranches) := attachNodes report place inner branches
    let (done, left) := match range with
      | some range => if isLeaf then (inner, []) else report.leave inner range
      | none => (inner, [])
    let annotated := if range.isSome then progress.annotated else done.annotated
    ({ done with annotated := annotated },
      { id, kind, label, range, source, properties, children, branches
        remarks := remarks ++ (taken ++ (fromChildren ++ (fromBranches ++ left)))
        suggested, returning, flags })

/-- Hands diagnostics to siblings, and tells what their parent takes between them. -/
def attachNodes (report : Report) (parent : Option SourceRange) (progress : Progress) :
    List Node → Progress × List Node × List Remark
  | [] => (progress, [], [])
  | node :: rest =>
    let (before, taken) := report.between progress parent node.range
    let (after, node) := attachNode report parent before node
    let (done, rest, more) := attachNodes report parent after rest
    (done, node :: rest, taken ++ more)

end

def attach (report : Report) (nodes : List Node) : List Node :=
  (report.attachNodes none {} nodes).2.1

end Report

end Flowchart
