import Flowchart.Diagram.Call

/-!
The walk over a block that makes one node per statement. The draft of the statement at hand is set
aside while the statements of one of its blocks are walked, and taken up again when the block is
left.
-/
namespace Flowchart

/-- The draft at hand, the drafts set aside, and whether a return was seen. -/
structure Walker where
  draft : Draft := {}
  stack : List Draft := []
  hasReturn : Bool := false
deriving Repr, Inhabited

abbrev Walk := StateT Walker (Except FlowError)

namespace Walker

def edit (change : Draft → Draft) : Walk Unit :=
  modify fun walker => { walker with draft := change walker.draft }

def start (extent : Extent) : Walk Unit :=
  edit fun draft => (draft.withRange extent.range).withSource extent.source

/-- Sets the draft at hand aside and begins a new one. -/
def stepIn : Walk Unit :=
  modify fun walker => { walker with draft := {}, stack := walker.draft :: walker.stack }

/-- Takes up the draft that was set aside last, and adds a branch to it. -/
def stepOut (branch : Node) : Walk Unit := fun walker =>
  match walker.stack with
  | [] => .error .stackUnderflow
  | draft :: stack => .ok ((), { walker with draft := draft.withBranch branch, stack := stack })

/-- The node of the draft at hand; the next statement finds an empty draft. -/
def finishNode : Walk Node := fun walker =>
  match walker.draft.build with
  | .ok node => .ok (node, { walker with draft := {} })
  | .error error => .error error

def discard : Walk Unit := edit fun _ => {}

def branchNode (label : Text) (extent : Extent) (properties : Properties) (children : List Node) :
    Except FlowError Node :=
  ((((((({} : Draft).withKind .block).withLabel label).withRange extent.range).withSource
    extent.source).withProperties properties).withChildren children).build

/-- Adds a branch with the nodes that a walk makes. -/
def branch (label : Text) (extent : Extent) (properties : Properties)
    (children : Walk (List Node)) : Walk Unit := do
  stepIn
  let children ← children
  let node ← branchNode label extent properties children
  stepOut node

/-- The type and name that a handler binds its error by. -/
def bindingProperties : Option (Text × Text) → Properties
  | none => []
  | some (typeName, name) =>
    Properties.ofEntries
      [(Key.errorType, .ofType typeName), (Key.errorVariable, .ofIdentifier name)]

/-- The draft of a declaration: a call that is kept in a variable, or a variable with a value. -/
def declare (setting : Setting) (isFinal : Bool) (typeName name : Text) (init : Option Expr)
    (draft : Draft) : Draft :=
  let draft := (draft.withProperty Key.type (.ofType typeName)).withProperty Key.name
    (.ofIdentifier name)
  let plain := (draft.withKind .varDecl).withProperty Key.value
    (.ofExpression ((init.map Expr.source).getD []))
  let draft := match init with
    | none => plain
    | some init => match Call.recognize setting init draft with
      | .recognized draft => draft
      | _ => plain
  if isFinal then draft.withFlag .final else draft

/-- The draft of an assignment: a call that is kept in a variable, or a value. -/
def assign (setting : Setting) (target : Text) (value : Expr) (draft : Draft) : Draft :=
  let draft := draft.withProperty Key.name (.ofIdentifier target)
  match Call.recognize setting value draft with
  | .recognized draft => draft
  | _ => (draft.withKind .assign).withProperty Key.value (.ofExpression value.source)

def leave (value : Option Expr) (draft : Draft) : Draft :=
  let draft := match value with
    | some value => (draft.withKind .ret).withProperty Key.expression (.ofExpression value.source)
    | none => draft.withKind .stop
  draft.asReturning

/-- The draft of a statement that is one expression; none when the statement is dropped. -/
def express (setting : Setting) (value : Expr) (draft : Draft) : Option Draft :=
  match Call.recognize setting value draft with
  | .recognized draft => some draft
  | .unrecognized =>
    some ((draft.withKind .expression).withProperty Key.statement (.ofExpression value.source))
  | .dropped => none

def conditional (condition : Expr) (draft : Draft) : Draft :=
  (draft.withKind .cond).withProperty Key.condition (.ofExpression condition.unparenthesized)

mutual

/-- The node of a statement; none when the statement is dropped. -/
def walkStatement (setting : Setting) : Statement → Walk (Option Node)
  | .varDecl extent isFinal typeName name init => do
    start extent
    edit (declare setting isFinal typeName name init)
    some <$> finishNode
  | .assign extent target value => do
    start extent
    edit (assign setting target value)
    some <$> finishNode
  | .ret extent value => do
    start extent
    modify fun walker => { walker with hasReturn := true }
    edit (leave value)
    some <$> finishNode
  | .cond extent condition body otherwise => do
    start extent
    edit (conditional condition)
    walkBlock setting BranchLabel.whenTrue [] body
    walkOtherwise setting otherwise
    some <$> finishNode
  | .loop extent condition body handler => do
    start extent
    edit fun draft => (draft.withKind .loop).withProperty Key.condition
      (.ofExpression condition.unparenthesized)
    walkBlock setting BranchLabel.body [] body
    walkHandler setting handler
    some <$> finishNode
  | .each extent typeName name collection body handler => do
    start extent
    edit fun draft => (((draft.withKind .each).withProperty Key.type
      (.ofType typeName)).withProperty Key.name (.ofIdentifier name)).withProperty Key.collection
      (.ofExpression collection.source)
    walkBlock setting BranchLabel.body [] body
    walkHandler setting handler
    some <$> finishNode
  | .attempt extent body handler => do
    start extent
    edit fun draft => draft.withKind .errorHandler
    walkBlock setting BranchLabel.body [] body
    walkHandler setting handler
    some <$> finishNode
  | .lock extent body handler => do
    start extent
    edit fun draft => draft.withKind .lock
    walkBlock setting BranchLabel.body [] body
    walkHandler setting handler
    some <$> finishNode
  | .exitLoop extent => do
    start extent
    edit fun draft => draft.withKind .exitLoop
    some <$> finishNode
  | .nextRound extent => do
    start extent
    edit fun draft => draft.withKind .nextRound
    some <$> finishNode
  | .panic extent value => do
    start extent
    edit fun draft => (draft.withKind .panic).withProperty Key.expression
      (.ofExpression value.source)
    some <$> finishNode
  | .fail extent value => do
    start extent
    edit fun draft => (draft.withKind .fail).withProperty Key.expression
      (.ofExpression value.source)
    some <$> finishNode
  | .expression extent value => do
    start extent
    match express setting value (← get).draft with
    | some draft => do
      edit fun _ => draft
      some <$> finishNode
    | none => do
      discard
      pure none
  | .comment extent lines => do
    start extent
    edit fun draft => (draft.withKind .comment).withProperty Key.comment
      (.ofString (List.intercalate "\n" lines))
    some <$> finishNode
  | .invalid extent => do
    start extent
    edit fun draft => (draft.withKind .expression).withProperty Key.statement
      (.ofExpression extent.source)
    some <$> finishNode

/-- Adds what follows the block of a condition. A further condition becomes the one node of its own
branch. -/
def walkOtherwise (setting : Setting) : Otherwise → Walk Unit
  | .nothing => pure ()
  | .block body => walkBlock setting BranchLabel.whenFalse [] body
  | .cond extent condition body otherwise =>
    branch BranchLabel.whenFalse extent [] do
      start extent
      edit (conditional condition)
      walkBlock setting BranchLabel.whenTrue [] body
      walkOtherwise setting otherwise
      let node ← finishNode
      pure [node]

def walkHandler (setting : Setting) : Handler → Walk Unit
  | .nothing => pure ()
  | .onFail binding body =>
    walkBlock setting BranchLabel.onFail (bindingProperties binding) body

def walkBlock (setting : Setting) (label : Text) (properties : Properties) : Block → Walk Unit
  | .mk extent statements => branch label extent properties (walkStatements setting statements)

def walkStatements (setting : Setting) : List Statement → Walk (List Node)
  | [] => pure []
  | statement :: rest => do
    let node ← walkStatement setting statement
    let nodes ← walkStatements setting rest
    pure (node.toList ++ nodes)

end

def walk (setting : Setting) (block : Block) : Except FlowError (List Node × Bool) := do
  let (nodes, walker) ← (walkStatements setting block.statements).run {}
  if walker.stack.isEmpty then pure (nodes, walker.hasReturn)
  else throw (.unbalancedStack walker.stack.length)

end Walker

end Flowchart
