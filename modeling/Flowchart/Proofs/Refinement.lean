import Flowchart.Proofs.Attachment

/-!
The walk over the stack of drafts beside the plain reading. The node of a statement covers the
statement, has a branch for each of its blocks and no other nodes below it, and is returning when
the statement is a return. So the walk over a block never fails and gives back an empty draft and
an empty stack, its nodes are those that each statement has on a walk of its own, and it has seen a
return when one of the nodes, at any depth, is returning.
-/
namespace Flowchart

open Statement

variable {draft after : Draft}

namespace Draft

/-- A draft without its kind, label, properties and flags. What is left is what a call does not
change. -/
def frame (draft : Draft) : Draft :=
  { draft with kind := none, label := none, properties := [], flags := {} }

theorem frame_of_bare {other : Draft} (h : draft.bare = other.bare) :
    draft.frame = other.frame := by
  have hframe := congrArg frame h
  exact hframe

end Draft

namespace Call

theorem withCallee_frame (connectors : Option ConnectorIndex) (symbol : Symbol) (draft : Draft)
    (callee : Callee) : (withCallee connectors symbol draft callee).frame = draft.frame := by
  cases callee with
  | function qualifier name => cases qualifier <;> rfl
  | remote target method => rfl
  | resource target path method => rfl

/-- What a recognized call adds to a draft: what it invokes, its arguments and its check. -/
theorem recognize_eq {setting : Setting} {e : Expr}
    (h : recognize setting e draft = .recognized after) :
    ∃ extent callee args symbol, e.unchecked = .call extent callee args ∧
      setting.symbols.resolve? (.call extent callee args) = some symbol ∧
      after = (withArguments setting.current symbol args
        (withCallee setting.connectors symbol draft callee)).withFlag (checkFlag e) := by
  unfold recognize at h
  split at h
  · next extent callee args hcall =>
    split at h
    · next symbol hsymbol =>
      split at h
      · cases h
        exact ⟨extent, callee, args, symbol, hcall, hsymbol, rfl⟩
      · cases callee <;> cases h
    · cases callee <;> cases h
  · cases h

/-- A recognized call leaves the frame of the draft alone. -/
theorem recognize_frame {setting : Setting} {e : Expr}
    (h : recognize setting e draft = .recognized after) : after.frame = draft.frame := by
  obtain ⟨-, callee, args, symbol, -, -, rfl⟩ := recognize_eq h
  have hargs := Draft.frame_of_bare (bare_withArguments setting.current symbol args
    (withCallee setting.connectors symbol draft callee))
  exact hargs.trans (withCallee_frame setting.connectors symbol draft callee)

end Call

namespace Walker

variable {setting : Setting}

theorem declare_frame (isFinal : Bool) (typeName name : Text) (init : Option Expr) (draft : Draft) :
    (declare setting isFinal typeName name init draft).frame = draft.frame := by
  unfold declare
  have hfinal (after : Draft) : (if isFinal then after.withFlag .final else after).frame =
      after.frame := by
    split <;> rfl
  rw [hfinal]
  split
  · rfl
  · split
    · next after hcall => exact (Call.recognize_frame hcall).trans rfl
    · rfl

theorem assign_frame (target : Text) (value : Expr) (draft : Draft) :
    (assign setting target value draft).frame = draft.frame := by
  unfold assign
  dsimp only
  split
  · next after hcall => exact (Call.recognize_frame hcall).trans rfl
  · rfl

theorem express_frame {value : Expr} (h : express setting value draft = some after) :
    after.frame = draft.frame := by
  unfold express at h
  split at h
  · next hcall =>
    cases h
    exact Call.recognize_frame hcall
  · cases h
    rfl
  · cases h

end Walker

namespace Statement

variable {setting : Setting}

/-- The branches of the node of a statement, one for each of its blocks. -/
def branchNodes (setting : Setting) : Statement → List Node
  | .cond _ _ body otherwise =>
    branch setting BranchLabel.whenTrue [] body :: otherwiseBranches setting otherwise
  | .loop _ _ body handler =>
    branch setting BranchLabel.body [] body :: handlerBranches setting handler
  | .each _ _ _ _ body handler =>
    branch setting BranchLabel.body [] body :: handlerBranches setting handler
  | .attempt _ body handler =>
    branch setting BranchLabel.body [] body :: handlerBranches setting handler
  | .lock _ body handler =>
    branch setting BranchLabel.body [] body :: handlerBranches setting handler
  | _ => []

def isReturn : Statement → Bool
  | .ret _ _ => true
  | .cond _ _ _ _ | .loop _ _ _ _ | .each _ _ _ _ _ _ | .attempt _ _ _ | .lock _ _ _ => false
  | .varDecl _ _ _ _ _ | .assign _ _ _ | .exitLoop _ | .nextRound _ | .panic _ _ | .fail _ _
  | .expression _ _ | .comment _ _ | .invalid _ => false

/-- The node covers a piece of the file, has some branches and no children, and is returning or
not. -/
structure Frames (extent : Extent) (branches : List Node) (returning : Bool) (node : Node) :
    Prop where
  range : node.range = some extent.range
  source : node.source = extent.source
  children : node.children = []
  branches : node.branches = branches
  returning : node.returning = returning

theorem frames_toNode {extent : Extent} (h : draft.frame = (Draft.begun extent).frame) :
    Frames extent [] false draft.toNode :=
  ⟨(congrArg Draft.range h :), (congrArg Draft.source h :), (congrArg Draft.children h :),
    (congrArg Draft.branches h :), (congrArg Draft.returning h :)⟩

/-- What the node of a statement is, but for its kind and what is written on it. -/
theorem node?_frames {statement : Statement} {node : Node}
    (h : statement.node? setting = some node) :
    Frames statement.extent (statement.branchNodes setting) statement.isReturn node := by
  cases statement with
  | varDecl extent isFinal typeName name init =>
    cases h
    exact frames_toNode (Walker.declare_frame isFinal typeName name init _)
  | assign extent target value =>
    cases h
    exact frames_toNode (Walker.assign_frame target value _)
  | expression extent value =>
    obtain ⟨draft, hdraft, rfl⟩ := Option.map_eq_some_iff.mp h
    exact frames_toNode (Walker.express_frame hdraft)
  | ret extent value =>
    cases h
    cases value <;> exact ⟨rfl, rfl, rfl, rfl, rfl⟩
  | cond | loop | each | attempt | lock | exitLoop | nextRound | panic | fail | comment | invalid =>
    cases h
    exact ⟨rfl, rfl, rfl, rfl, rfl⟩

/-- Only a statement without blocks that is no return is dropped. -/
theorem node?_dropped {statement : Statement} (h : statement.node? setting = none) :
    statement.branchNodes setting = [] ∧ statement.isReturn = false := by
  cases statement with
  | expression => exact ⟨rfl, rfl⟩
  | _ =>
    cases h

/-- Some node among these or below them is returning. -/
def anyReturning (nodes : List Node) : Bool := (Node.flatten nodes).any (·.returning)

theorem anyReturning_nil : anyReturning [] = false := rfl

theorem anyReturning_cons (node : Node) (rest : List Node) :
    anyReturning (node :: rest) = (node.returning ||
      (anyReturning node.children || anyReturning node.branches) || anyReturning rest) := by
  simp only [anyReturning, Node.flatten_cons, Node.inner, List.any_cons, List.any_append,
    Bool.or_assoc]

theorem anyReturning_append (nodes more : List Node) :
    anyReturning (nodes ++ more) = (anyReturning nodes || anyReturning more) := by
  simp only [anyReturning, Node.flatten_append, List.any_append]

theorem anyReturning_branchOver (label : Text) (extent : Extent) (properties : Properties)
    (children rest : List Node) :
    anyReturning (branchOver label extent properties children :: rest) =
      (anyReturning children || anyReturning rest) := by
  rw [anyReturning_cons]
  change ((false || (anyReturning children || anyReturning [])) || anyReturning rest) = _
  rw [anyReturning_nil, Bool.false_or, Bool.or_false]

/-- The nodes of a statement: its own, if it has one, and those of its blocks. -/
theorem anyReturning_node? (setting : Setting) (statement : Statement) :
    anyReturning (statement.node? setting).toList =
      (statement.isReturn || anyReturning (statement.branchNodes setting)) := by
  cases h : statement.node? setting with
  | none =>
    obtain ⟨hbranches, hreturn⟩ := node?_dropped h
    rw [hbranches, hreturn]
    rfl
  | some node =>
    have hframes := node?_frames h
    rw [Option.toList, anyReturning_cons, hframes.returning, hframes.children, hframes.branches,
      anyReturning_nil, Bool.false_or, Bool.or_false]

mutual

/-- A node of a statement is returning when a return occurs in the statement. -/
theorem returning_node? (setting : Setting) : ∀ statement : Statement,
    anyReturning (statement.node? setting).toList = statement.returns
  | .cond extent condition body otherwise => by
    rw [anyReturning_node?, isReturn, branchNodes, returning_branch, returning_otherwise, returns,
      Bool.false_or]
  | .loop _ _ body handler | .each _ _ _ _ body handler | .attempt _ body handler
  | .lock _ body handler => by
    rw [anyReturning_node?, isReturn, branchNodes, returning_branch, returning_handler, returns,
      Bool.false_or]
  | .ret _ _ => by rw [anyReturning_node?, isReturn, returns, Bool.true_or]
  | .varDecl .. | .assign .. | .exitLoop _ | .nextRound _ | .panic .. | .fail ..
  | .expression .. | .comment .. | .invalid _ => by
    rw [anyReturning_node?]
    rfl

theorem returning_otherwise (setting : Setting) : ∀ otherwise : Otherwise,
    anyReturning (otherwiseBranches setting otherwise) = returnsOtherwise otherwise
  | .nothing => by rw [otherwiseBranches, returnsOtherwise, anyReturning_nil]
  | .block body => by
    rw [otherwiseBranches, returnsOtherwise, returning_branch, anyReturning_nil, Bool.or_false]
  | .cond extent condition body otherwise => by
    -- the one node of the branch is that of a condition
    have hnode := anyReturning_node? setting (.cond extent condition body otherwise)
    rw [isReturn, branchNodes, returning_branch, returning_otherwise] at hnode
    rw [otherwiseBranches, anyReturning_branchOver, anyReturning_nil,
      Bool.or_false]
    exact hnode

theorem returning_handler (setting : Setting) : ∀ handler : Handler,
    anyReturning (handlerBranches setting handler) = returnsInHandler handler
  | .nothing => by rw [handlerBranches, returnsInHandler, anyReturning_nil]
  | .onFail binding body => by
    rw [handlerBranches, returnsInHandler, returning_branch, anyReturning_nil, Bool.or_false]

theorem returning_branch (setting : Setting) (label : Text) (properties : Properties)
    (rest : List Node) : ∀ block : Block,
    anyReturning (branch setting label properties block :: rest) =
      (returnsInBlock block || anyReturning rest)
  | .mk extent statements => by
    rw [branch, anyReturning_branchOver, returning_nodes, returnsInBlock]

theorem returning_nodes (setting : Setting) : ∀ statements : List Statement,
    anyReturning (nodes setting statements) = returnsInAny statements
  | [] => by rw [nodes, returnsInAny, anyReturning_nil]
  | statement :: rest => by
    rw [nodes, returnsInAny, anyReturning_append, returning_node?, returning_nodes]

end

theorem nodes_eq_flatMap (setting : Setting) (statements : List Statement) :
    nodes setting statements =
      statements.flatMap fun statement => (statement.node? setting).toList := by
  induction statements with
  | nil => rfl
  | cons statement rest ih => rw [nodes, List.flatMap_cons, ih]

theorem returnsInAny_eq_any (statements : List Statement) :
    returnsInAny statements = statements.any returns := by
  induction statements with
  | nil => rfl
  | cons statement rest ih => rw [returnsInAny, List.any_cons, ih]

end Statement

namespace Walker

/-- The walk over a block refines the walks over its statements. From an empty walker it ends, with
an empty draft and an empty stack. Each statement has at most one node on an empty walker of its
own, and ends it in the same way; the nodes of the block are these, in their order. The walk has
seen a return when one of the statements alone has one, and this is when a node at any depth is
returning, or when a return occurs anywhere in the block. -/
theorem walk_refines (setting : Setting) (block : Block) :
    ∃ (node? : Statement → Option Node) (hasReturn : Statement → Bool),
      (∀ statement, walkStatement setting statement {} =
        .ok (node? statement, { draft := {}, stack := [], hasReturn := hasReturn statement })) ∧
      walkStatements setting block.statements {} =
        .ok (block.statements.flatMap fun statement => (node? statement).toList,
          { draft := {}, stack := [], hasReturn := block.statements.any hasReturn }) ∧
      walk setting block = .ok (block.statements.flatMap fun statement => (node? statement).toList,
        block.statements.any hasReturn) ∧
      (block.statements.any hasReturn = true ↔
        ∃ node ∈ Node.flatten (block.statements.flatMap fun statement => (node? statement).toList),
          node.returning = true) ∧
      block.statements.any hasReturn = returnsInBlock block := by
  obtain ⟨extent, statements⟩ := block
  refine ⟨node? setting, returns, ?_, ?_, ?_, ?_, ?_⟩
  · intro statement
    exact (walkStatement_eq setting statement [] false).trans (by rw [Bool.false_or])
  · rw [← nodes_eq_flatMap, ← returnsInAny_eq_any]
    exact (walkStatements_eq setting statements [] false).trans (by rw [Bool.false_or]; rfl)
  · rw [walk_eq, nodes_eq_flatMap, returnsInBlock, returnsInAny_eq_any]
    rfl
  · have hnodes := returning_nodes setting statements
    rw [returnsInAny_eq_any, nodes_eq_flatMap] at hnodes
    rw [← List.any_eq_true]
    exact Bool.eq_iff_iff.mp hnodes.symm
  · rw [returnsInBlock, returnsInAny_eq_any]
    rfl

end Walker

end Flowchart
