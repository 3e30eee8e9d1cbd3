import Flowchart.Node.Basic

/-!
Telling which nodes of a fresh diagram are new. Nodes are matched in order by the words of their
source; compound nodes in the same place are matched branch by branch. A node without a match is
suggested, unless it meets one of the errors of the text: it is then left out, and so are the
nodes without a match that follow it.
-/
namespace Flowchart

/-- The ranges of errors that are still to come, and whether the last node without a match met
one. -/
structure Reconciler where
  errors : List SourceRange := []
  inStreak : Bool := false
deriving Repr, Inhabited

namespace Reconciler

/-- Uses the ranges of the errors among some diagnostics, sorted by their start. -/
def ofDiagnostics (diagnostics : List Diagnostic) : Reconciler :=
  let ranges := (diagnostics.filter Diagnostic.isError).map (·.range)
  ⟨ranges.mergeSort fun a b => a.start ≤ b.start, false⟩

/-- The sources are made of the same words, and the first one is not empty. -/
def sameSource (a b : Node) : Bool :=
  !a.source.isEmpty && Text.words a.source = Text.words b.source

/-- The errors without those of the same file that end before a range. -/
def upcoming (range : SourceRange) (errors : List SourceRange) : List SourceRange :=
  errors.dropWhile fun error => error.file = range.file && error.endsBefore range

/-- A node without a match: suggested, or left out on account of an error. -/
def insert (state : Reconciler) (node : Node) : Reconciler × Option Node :=
  if state.inStreak then (state, none)
  else match node.range with
    | none => (state, some (node.mark true))
    | some range =>
      match upcoming range state.errors with
      | [] => ({ state with errors := [] }, some (node.mark true))
      | error :: rest =>
        if error.intersects range then ({ errors := rest, inStreak := true }, none)
        else ({ state with errors := error :: rest }, some (node.mark true))

mutual

/-- The nodes of a fresh diagram with their marks, given the nodes that were there before. -/
def reconcile (state : Reconciler) (old : List Node) : List Node → Reconciler × List Node
  | [] => (state, [])
  | node@⟨_, _, _, _, _, _, _, branches, _, _, _, _⟩ :: rest =>
    match old with
    | [] =>
      let (state, kept) := state.insert node
      let (state, nodes) := reconcile state [] rest
      (state, kept.toList ++ nodes)
    | previous :: older =>
      if sameSource previous node then
        let (state, nodes) := reconcile { state with inStreak := false } older rest
        (state, node.mark false :: nodes)
      else if !previous.branches.isEmpty && !branches.isEmpty then
        let (state, branches) := reconcileBranches state previous branches
        let (state, nodes) := reconcile state older rest
        (state, { node with suggested := some false, branches := branches } :: nodes)
      else
        let (state, kept) := state.insert node
        let (state, nodes) := reconcile state (previous :: older) rest
        (state, kept.toList ++ nodes)

/-- The branches of a node, each against the branch of its label before. -/
def reconcileBranches (state : Reconciler) (previous : Node) : List Node → Reconciler × List Node
  | [] => (state, [])
  | branch@⟨_, _, label, _, _, _, children, _, _, _, _, _⟩ :: rest =>
    match previous.branch? label with
    | some old =>
      let (state, children) := reconcile state old.children children
      let (state, branches) := reconcileBranches state previous rest
      (state, { branch with suggested := some false, children := children } :: branches)
    | none =>
      let (state, branches) := reconcileBranches state previous rest
      (state, branch.mark true :: branches)

end

end Reconciler

end Flowchart
