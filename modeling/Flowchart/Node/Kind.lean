import Flowchart.Text.Basic

/-!
The kinds of nodes of a diagram, with their names in data and their labels for display.
-/
namespace Flowchart

inductive NodeKind where
  | start
  | cond
  | ret
  | stop
  | block
  | functionCall
  | remoteCall
  | resourceCall
  | httpGet
  | httpPost
  | varDecl
  | assign
  | loop
  | each
  | exitLoop
  | nextRound
  | errorHandler
  | lock
  | panic
  | fail
  | expression
  | comment
deriving DecidableEq, Repr, Inhabited

namespace NodeKind

/-- All kinds in their fixed order, which numbers them. -/
def all : List NodeKind :=
  [start, cond, ret, stop, block, functionCall, remoteCall, resourceCall, httpGet, httpPost,
    varDecl, assign, loop, each, exitLoop, nextRound, errorHandler, lock, panic, fail,
    expression, comment]

def number (kind : NodeKind) : Nat := all.idxOf kind

def name : NodeKind → Text
  | start => "START"
  | cond => "IF"
  | ret => "RETURN"
  | stop => "STOP"
  | block => "BLOCK"
  | functionCall => "FUNCTION_CALL"
  | remoteCall => "REMOTE_ACTION_CALL"
  | resourceCall => "RESOURCE_ACTION_CALL"
  | httpGet => "HTTP_API_GET_CALL"
  | httpPost => "HTTP_API_POST_CALL"
  | varDecl => "VARIABLE"
  | assign => "ASSIGN"
  | loop => "WHILE"
  | each => "FOREACH"
  | exitLoop => "BREAK"
  | nextRound => "CONTINUE"
  | errorHandler => "ERROR_HANDLER"
  | lock => "LOCK"
  | panic => "PANIC"
  | fail => "FAIL"
  | expression => "EXPRESSION"
  | comment => "COMMENT"

def label : NodeKind → Text
  | start => "Start"
  | cond => "If"
  | ret => "Return"
  | stop => "Stop"
  | block => "Block"
  | functionCall => "Call"
  | remoteCall => "Remote Action"
  | resourceCall => "Resource Action"
  | httpGet => "GET"
  | httpPost => "POST"
  | varDecl => "Variable"
  | assign => "Assign"
  | loop => "While"
  | each => "Foreach"
  | exitLoop => "Break"
  | nextRound => "Continue"
  | errorHandler => "Error Handler"
  | lock => "Lock"
  | panic => "Panic"
  | fail => "Fail"
  | expression => "Custom Expression"
  | comment => "Comment"

def isRemote : NodeKind → Bool
  | remoteCall => true
  | httpGet => true
  | httpPost => true
  | _ => false

def isCall (kind : NodeKind) : Bool :=
  kind = functionCall || kind = resourceCall || kind.isRemote

end NodeKind

end Flowchart
