import Flowchart.Diagram.Walker

/-!
The plain reading of a walk. A statement has at most one node, made of its own parts alone, and a
block has the nodes of its statements. The walk over the stack of drafts gives exactly these nodes:
it starts every statement on an empty draft, leaves the stack as it found it, and never fails.
-/
namespace Flowchart

open Statement Draft

variable {α : Type} {draft : Draft}

namespace Draft

/-- A draft that covers a piece of the file and holds nothing else yet. -/
def begun (extent : Extent) : Draft := (({} : Draft).withRange extent.range).withSource extent.source

/-- The node of a draft that can be finished. -/
def toNode (draft : Draft) : Node :=
  let kind := draft.kind.getD default
  let label := draft.label.getD kind.label
  { id := Node.identity kind label draft.range draft.properties
    kind := kind
    label := label
    range := draft.range
    source := draft.source
    properties := draft.properties
    children := draft.children
    branches := draft.branches
    remarks := draft.remarks
    returning := draft.returning
    flags := draft.flags }

/-- A draft with further branches. -/
def withBranches (draft : Draft) (branches : List Node) : Draft :=
  { draft with branches := draft.branches ++ branches }

/-- A draft without its properties. -/
def bare (draft : Draft) : Draft := { draft with properties := [] }

/-- The kind is known, and there are no children beside branches. -/
def Complete (draft : Draft) : Prop := draft.kind.isSome ∧ draft.children = []

theorem build_eq_toNode (hkind : draft.kind.isSome)
    (hshape : draft.children = [] ∨ draft.branches = []) : draft.build = .ok draft.toNode := by
  obtain ⟨kind, hk⟩ := Option.isSome_iff_exists.mp hkind
  rcases hshape with h | h <;> simp [build, toNode, hk, h]

theorem Complete.build (h : draft.Complete) : draft.build = .ok draft.toNode :=
  build_eq_toNode h.1 (Or.inl h.2)

@[simp] theorem withBranches_nil (draft : Draft) : draft.withBranches [] = draft := by
  simp [withBranches]

@[simp] theorem withBranches_withBranches (draft : Draft) (first second : List Node) :
    (draft.withBranches first).withBranches second = draft.withBranches (first ++ second) := by
  simp [withBranches]

theorem Complete.of_bare {other : Draft} (h : draft.bare = other.bare) (hother : other.Complete) :
    draft.Complete := by
  have hkind : draft.bare.kind = other.bare.kind := by rw [h]
  have hchildren : draft.bare.children = other.bare.children := by rw [h]
  exact ⟨(congrArg Option.isSome hkind).trans hother.1, hchildren.trans hother.2⟩

/-- A sequence of steps that change properties only changes properties only. -/
theorem bare_foldl (step : Draft → α → Draft)
    (hstep : ∀ draft item, (step draft item).bare = draft.bare) (items : List α) (draft : Draft) :
    (items.foldl step draft).bare = draft.bare := by
  induction items generalizing draft with
  | nil => rfl
  | cons item rest ih => rw [List.foldl_cons, ih, hstep]

end Draft

namespace Call

theorem bare_withParameter (current : Option ModuleName) (positional : List Text)
    (named : List NamedArgument) (draft : Draft) (item : Parameter TypeDesc × Nat) :
    (withParameter current positional named draft item).bare = draft.bare := by
  unfold withParameter
  dsimp only
  split <;> split <;> try rfl
  split <;> rfl

theorem bare_withUnknown (params : List (Parameter TypeDesc)) (draft : Draft)
    (arg : NamedArgument) : (withUnknown params draft arg).bare = draft.bare := by
  unfold withUnknown
  split
  · rfl
  · split <;> rfl

/-- Arguments are properties and nothing else. -/
theorem bare_withArguments (current : Option ModuleName) (symbol : Symbol) (args : List Expr)
    (draft : Draft) : (withArguments current symbol args draft).bare = draft.bare := by
  unfold withArguments
  rw [bare_foldl _ (bare_withUnknown symbol.params),
    bare_foldl withExtra (fun _ _ => rfl),
    bare_foldl _ (bare_withParameter current (positional args) (named args))]

theorem complete_withCallee (connectors : Option ConnectorIndex) (symbol : Symbol) (draft : Draft)
    (callee : Callee) (h : draft.children = []) :
    (withCallee connectors symbol draft callee).Complete := by
  cases callee with
  | function qualifier name => cases qualifier <;> exact ⟨rfl, h⟩
  | remote target method => exact ⟨rfl, h⟩
  | resource target path method => exact ⟨rfl, h⟩

/-- A recognized call can be finished. -/
theorem recognize_complete {setting : Setting} {e : Expr} {after : Draft}
    (h : recognize setting e draft = .recognized after) (hdraft : draft.children = []) :
    after.Complete := by
  unfold recognize at h
  split at h
  · next extent callee args _ =>
    split at h
    · next symbol _ =>
      split at h
      · cases h
        have hcallee := complete_withCallee setting.connectors symbol draft callee hdraft
        have hargs := Complete.of_bare
          (bare_withArguments setting.current symbol args _) hcallee
        exact ⟨hargs.1, hargs.2⟩
      · cases callee <;> cases h
    · cases callee <;> cases h
  · cases h

end Call

mutual

/-- A statement and the statements in its blocks, at any depth. A further condition after an else
counts as a statement of its own. -/
def Statement.within : Statement → List Statement
  | .cond extent condition body otherwise =>
    .cond extent condition body otherwise :: (body.within ++ otherwise.within)
  | .loop extent condition body handler =>
    .loop extent condition body handler :: (body.within ++ handler.within)
  | .each extent typeName name collection body handler =>
    .each extent typeName name collection body handler :: (body.within ++ handler.within)
  | .attempt extent body handler => .attempt extent body handler :: (body.within ++ handler.within)
  | .lock extent body handler => .lock extent body handler :: (body.within ++ handler.within)
  | .varDecl extent isFinal typeName name init => [.varDecl extent isFinal typeName name init]
  | .assign extent target value => [.assign extent target value]
  | .ret extent value => [.ret extent value]
  | .exitLoop extent => [.exitLoop extent]
  | .nextRound extent => [.nextRound extent]
  | .panic extent value => [.panic extent value]
  | .fail extent value => [.fail extent value]
  | .expression extent value => [.expression extent value]
  | .comment extent lines => [.comment extent lines]
  | .invalid extent => [.invalid extent]

def Otherwise.within : Otherwise → List Statement
  | .nothing => []
  | .cond extent condition body otherwise =>
    .cond extent condition body otherwise :: (body.within ++ otherwise.within)
  | .block body => body.within

def Handler.within : Handler → List Statement
  | .nothing => []
  | .onFail _ body => body.within

def Block.within : Block → List Statement
  | .mk _ statements => Statement.allWithin statements

def Statement.allWithin : List Statement → List Statement
  | [] => []
  | statement :: rest => statement.within ++ Statement.allWithin rest

end

theorem Block.within_eq (block : Block) : block.within = allWithin block.statements := by
  cases block
  rfl

theorem Statement.mem_within (statement : Statement) : statement ∈ statement.within := by
  cases statement <;> rw [within] <;> exact List.mem_cons_self

namespace Statement

/-- The branch with a label and some nodes over a piece of the file. -/
def branchOver (label : Text) (extent : Extent) (properties : Properties) (children : List Node) :
    Node :=
  ((((((({} : Draft).withKind .block).withLabel label).withRange extent.range).withSource
    extent.source).withProperties properties).withChildren children).toNode

mutual

/-- The node of a statement; none when the statement is dropped. -/
def node? (setting : Setting) : Statement → Option Node
  | .varDecl extent isFinal typeName name init =>
    some (Walker.declare setting isFinal typeName name init (begun extent)).toNode
  | .assign extent target value =>
    some (Walker.assign setting target value (begun extent)).toNode
  | .ret extent value => some (Walker.leave value (begun extent)).toNode
  | .cond extent condition body otherwise =>
    some ((Walker.conditional condition (begun extent)).withBranches
      (branch setting BranchLabel.whenTrue [] body :: otherwiseBranches setting otherwise)).toNode
  | .loop extent condition body handler =>
    some ((((begun extent).withKind .loop).withProperty Key.condition
      (.ofExpression condition.unparenthesized)).withBranches
      (branch setting BranchLabel.body [] body :: handlerBranches setting handler)).toNode
  | .each extent typeName name collection body handler =>
    some ((((((begun extent).withKind .each).withProperty Key.type
      (.ofType typeName)).withProperty Key.name (.ofIdentifier name)).withProperty Key.collection
      (.ofExpression collection.source)).withBranches
      (branch setting BranchLabel.body [] body :: handlerBranches setting handler)).toNode
  | .attempt extent body handler =>
    some (((begun extent).withKind .errorHandler).withBranches
      (branch setting BranchLabel.body [] body :: handlerBranches setting handler)).toNode
  | .lock extent body handler =>
    some (((begun extent).withKind .lock).withBranches
      (branch setting BranchLabel.body [] body :: handlerBranches setting handler)).toNode
  | .exitLoop extent => some ((begun extent).withKind .exitLoop).toNode
  | .nextRound extent => some ((begun extent).withKind .nextRound).toNode
  | .panic extent value =>
    some (((begun extent).withKind .panic).withProperty Key.expression
      (.ofExpression value.source)).toNode
  | .fail extent value =>
    some (((begun extent).withKind .fail).withProperty Key.expression
      (.ofExpression value.source)).toNode
  | .expression extent value =>
    (Walker.express setting value (begun extent)).map toNode
  | .comment extent lines =>
    some (((begun extent).withKind .comment).withProperty Key.comment
      (.ofString (List.intercalate "\n" lines))).toNode
  | .invalid extent =>
    some (((begun extent).withKind .expression).withProperty Key.statement
      (.ofExpression extent.source)).toNode

/-- The branches for what follows the block of a condition. -/
def otherwiseBranches (setting : Setting) : Otherwise → List Node
  | .nothing => []
  | .block body => [branch setting BranchLabel.whenFalse [] body]
  | .cond extent condition body otherwise =>
    [branchOver BranchLabel.whenFalse extent []
      [((Walker.conditional condition (begun extent)).withBranches
        (branch setting BranchLabel.whenTrue [] body ::
          otherwiseBranches setting otherwise)).toNode]]

/-- The branch of a handler. -/
def handlerBranches (setting : Setting) : Handler → List Node
  | .nothing => []
  | .onFail binding body =>
    [branch setting BranchLabel.onFail (Walker.bindingProperties binding) body]

/-- The branch with the nodes of a block. -/
def branch (setting : Setting) (label : Text) (properties : Properties) : Block → Node
  | .mk extent statements => branchOver label extent properties (nodes setting statements)

/-- The nodes of some statements. -/
def nodes (setting : Setting) : List Statement → List Node
  | [] => []
  | statement :: rest => (node? setting statement).toList ++ nodes setting rest

end

mutual

/-- A return occurs in the statement. -/
def returns : Statement → Bool
  | .ret _ _ => true
  | .cond _ _ body otherwise => returnsInBlock body || returnsOtherwise otherwise
  | .loop _ _ body handler => returnsInBlock body || returnsInHandler handler
  | .each _ _ _ _ body handler => returnsInBlock body || returnsInHandler handler
  | .attempt _ body handler => returnsInBlock body || returnsInHandler handler
  | .lock _ body handler => returnsInBlock body || returnsInHandler handler
  | .varDecl _ _ _ _ _ => false
  | .assign _ _ _ => false
  | .exitLoop _ => false
  | .nextRound _ => false
  | .panic _ _ => false
  | .fail _ _ => false
  | .expression _ _ => false
  | .comment _ _ => false
  | .invalid _ => false

def returnsOtherwise : Otherwise → Bool
  | .nothing => false
  | .cond _ _ body otherwise => returnsInBlock body || returnsOtherwise otherwise
  | .block body => returnsInBlock body

def returnsInHandler : Handler → Bool
  | .nothing => false
  | .onFail _ body => returnsInBlock body

def returnsInBlock : Block → Bool
  | .mk _ statements => returnsInAny statements

def returnsInAny : List Statement → Bool
  | [] => false
  | statement :: rest => returns statement || returnsInAny rest

end

end Statement

namespace Walker

variable {setting : Setting} {draft : Draft} {stack : List Draft} {hasReturn : Bool}

theorem finishNode_eq (h : draft.Complete) :
    finishNode ⟨draft, stack, hasReturn⟩ = .ok (draft.toNode, ⟨{}, stack, hasReturn⟩) := by
  simp only [finishNode, h.build]

theorem branchNode_eq (label : Text) (extent : Extent) (properties : Properties)
    (children : List Node) :
    branchNode label extent properties children =
      .ok (branchOver label extent properties children) :=
  build_eq_toNode rfl (Or.inr rfl)

/-- A branch adds one node to the draft at hand and gives the stack back. -/
theorem branch_eq {label : Text} {extent : Extent} {properties : Properties}
    {walk : Walk (List Node)} {children : List Node} {after : Bool}
    (h : walk ⟨{}, draft :: stack, hasReturn⟩ = .ok (children, ⟨{}, draft :: stack, after⟩)) :
    branch label extent properties walk ⟨draft, stack, hasReturn⟩ =
      .ok ((), ⟨draft.withBranches [branchOver label extent properties children], stack,
        after⟩) := by
  change (walk ⟨{}, draft :: stack, hasReturn⟩).bind _ = _
  rw [h]
  simp only [branchNode_eq]
  rfl

theorem complete_declare (isFinal : Bool) (typeName name : Text) (init : Option Expr)
    (h : draft.children = []) : (declare setting isFinal typeName name init draft).Complete := by
  unfold declare
  have hkept : ∀ after : Draft, after.Complete →
      (if isFinal then after.withFlag .final else after).Complete := by
    intro after hafter
    split <;> exact hafter
  apply hkept
  split
  · exact ⟨rfl, h⟩
  · split
    · next after hcall => exact Call.recognize_complete hcall h
    · exact ⟨rfl, h⟩

theorem complete_assign (target : Text) (value : Expr) (h : draft.children = []) :
    (assign setting target value draft).Complete := by
  unfold assign
  dsimp only
  split
  · next after hcall => exact Call.recognize_complete hcall h
  · exact ⟨rfl, h⟩

theorem complete_leave (value : Option Expr) (h : draft.children = []) :
    (leave value draft).Complete := by
  cases value <;> exact ⟨rfl, h⟩

theorem complete_express {value : Expr} {after : Draft}
    (hafter : express setting value draft = some after) (h : draft.children = []) :
    after.Complete := by
  unfold express at hafter
  split at hafter
  · next hcall =>
    cases hafter
    exact Call.recognize_complete hcall h
  · cases hafter
    exact ⟨rfl, h⟩
  · cases hafter

theorem start_bind (extent : Extent) (next : Unit → Walk α) :
    (start extent >>= next) ⟨{}, stack, hasReturn⟩ =
      next () ⟨begun extent, stack, hasReturn⟩ := rfl

theorem edit_bind (change : Draft → Draft) (next : Unit → Walk α) :
    (edit change >>= next) ⟨draft, stack, hasReturn⟩ = next () ⟨change draft, stack, hasReturn⟩ :=
  rfl

theorem map_finishNode_eq (h : draft.Complete) :
    (some <$> finishNode : Walk (Option Node)) ⟨draft, stack, hasReturn⟩ =
      .ok (some draft.toNode, ⟨{}, stack, hasReturn⟩) := by
  change (finishNode ⟨draft, stack, hasReturn⟩).bind _ = _
  rw [finishNode_eq h]
  rfl

theorem bind_eq {β : Type} {step : Walk α} {next : α → Walk β} {s t : Walker} {a : α}
    (h : step s = .ok (a, t)) : (step >>= next) s = next a t := by
  change (step s).bind _ = _
  rw [h]
  rfl

mutual

/-- The walk over a statement gives its node and leaves an empty draft and the stack as it was. -/
theorem walkStatement_eq (setting : Setting) : ∀ (statement : Statement) (stack : List Draft)
    (hasReturn : Bool),
    walkStatement setting statement ⟨{}, stack, hasReturn⟩ =
      .ok (statement.node? setting, ⟨{}, stack, hasReturn || statement.returns⟩)
  | .varDecl extent isFinal typeName name init, stack, hasReturn => by
    rw [walkStatement, start_bind, edit_bind,
      map_finishNode_eq (complete_declare isFinal typeName name init rfl), node?,
      returns, Bool.or_false]
  | .assign extent target value, stack, hasReturn => by
    rw [walkStatement, start_bind, edit_bind,
      map_finishNode_eq (complete_assign target value rfl), node?,
      returns, Bool.or_false]
  | .ret extent value, stack, hasReturn => by
    rw [walkStatement, start_bind,
      bind_eq rfl, edit_bind,
      map_finishNode_eq (complete_leave value rfl), node?,
      returns, Bool.or_true]
  | .cond extent condition body otherwise, stack, hasReturn => by
    rw [walkStatement, start_bind, edit_bind,
      bind_eq (walkBlock_eq setting body BranchLabel.whenTrue [] _ stack hasReturn),
      bind_eq (walkOtherwise_eq setting otherwise _ stack _), Bool.or_assoc]
    rfl
  | .loop _ _ body handler, stack, hasReturn
  | .each _ _ _ _ body handler, stack, hasReturn
  | .attempt _ body handler, stack, hasReturn
  | .lock _ body handler, stack, hasReturn => by
    rw [walkStatement, start_bind, edit_bind,
      bind_eq (walkBlock_eq setting body BranchLabel.body [] _ stack hasReturn),
      bind_eq (walkHandler_eq setting handler _ stack _), Bool.or_assoc]
    rfl
  | .exitLoop _, stack, hasReturn | .nextRound _, stack, hasReturn | .panic .., stack, hasReturn
  | .fail .., stack, hasReturn | .comment .., stack, hasReturn | .invalid _, stack, hasReturn => by
    rw [walkStatement, start_bind, edit_bind, map_finishNode_eq ⟨rfl, rfl⟩, node?,
      returns, Bool.or_false]
  | .expression extent value, stack, hasReturn => by
    rw [walkStatement, start_bind, node?, returns, Bool.or_false,
      bind_eq rfl]
    cases hafter : express setting value (begun extent) with
    | none => rfl
    | some after =>
      simp only [Option.map_some]
      rw [edit_bind, map_finishNode_eq (complete_express hafter rfl)]

theorem walkOtherwise_eq (setting : Setting) : ∀ (otherwise : Otherwise) (draft : Draft)
    (stack : List Draft) (hasReturn : Bool),
    walkOtherwise setting otherwise ⟨draft, stack, hasReturn⟩ =
      .ok ((), ⟨draft.withBranches (otherwiseBranches setting otherwise), stack,
        hasReturn || returnsOtherwise otherwise⟩)
  | .nothing, draft, stack, hasReturn => by
    rw [otherwiseBranches, returnsOtherwise, Bool.or_false,
      withBranches_nil]
    rfl
  | .block body, draft, stack, hasReturn => by
    rw [walkOtherwise, otherwiseBranches, returnsOtherwise,
      walkBlock_eq setting body BranchLabel.whenFalse [] draft stack hasReturn]
  | .cond extent condition body otherwise, draft, stack, hasReturn => by
    apply branch_eq
    rw [start_bind, edit_bind,
      bind_eq (walkBlock_eq setting body BranchLabel.whenTrue [] _ _ hasReturn),
      bind_eq (walkOtherwise_eq setting otherwise _ _ _),
      Bool.or_assoc]
    rfl

theorem walkHandler_eq (setting : Setting) : ∀ (handler : Handler) (draft : Draft)
    (stack : List Draft) (hasReturn : Bool),
    walkHandler setting handler ⟨draft, stack, hasReturn⟩ =
      .ok ((), ⟨draft.withBranches (handlerBranches setting handler), stack,
        hasReturn || returnsInHandler handler⟩)
  | .nothing, draft, stack, hasReturn => by
    rw [handlerBranches, returnsInHandler, Bool.or_false,
      withBranches_nil]
    rfl
  | .onFail binding body, draft, stack, hasReturn => by
    rw [walkHandler, handlerBranches, returnsInHandler, walkBlock_eq setting body]

theorem walkBlock_eq (setting : Setting) : ∀ (block : Block) (label : Text)
    (properties : Properties) (draft : Draft) (stack : List Draft) (hasReturn : Bool),
    walkBlock setting label properties block ⟨draft, stack, hasReturn⟩ =
      .ok ((), ⟨draft.withBranches [Statement.branch setting label properties block], stack,
        hasReturn || returnsInBlock block⟩)
  | .mk extent statements, label, properties, draft, stack, hasReturn => by
    exact branch_eq (walkStatements_eq setting statements (draft :: stack) hasReturn)

/-- The walk over some statements gives the nodes of each, in their order. -/
theorem walkStatements_eq (setting : Setting) : ∀ (statements : List Statement)
    (stack : List Draft) (hasReturn : Bool),
    walkStatements setting statements ⟨{}, stack, hasReturn⟩ =
      .ok (nodes setting statements,
        ⟨{}, stack, hasReturn || returnsInAny statements⟩)
  | [], stack, hasReturn => by
    rw [returnsInAny, Bool.or_false]
    rfl
  | statement :: rest, stack, hasReturn => by
    rw [walkStatements, bind_eq (walkStatement_eq setting statement stack hasReturn),
      bind_eq (walkStatements_eq setting rest stack _),
      Bool.or_assoc]
    rfl

end

/-- A walk never fails: a block has the nodes of its statements, and returns when one of them
does. -/
theorem walk_eq (setting : Setting) (block : Block) :
    walk setting block =
      .ok (nodes setting block.statements, returnsInBlock block) := by
  obtain ⟨extent, statements⟩ := block
  change (walkStatements setting statements ⟨{}, [], false⟩).bind _ = _
  rw [walkStatements_eq]
  rfl

end Walker

end Flowchart
