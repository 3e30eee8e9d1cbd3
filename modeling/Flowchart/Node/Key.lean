import Flowchart.Text.Basic

/-!
The keys under which nodes keep their values and the labels of their branches. On a call, a key
that is not one of its structure names an argument.
-/
namespace Flowchart

namespace Key

def type : Text := "type"

def name : Text := "name"

def value : Text := "value"

def expression : Text := "expression"

def condition : Text := "condition"

def statement : Text := "statement"

def collection : Text := "collection"

def comment : Text := "comment"

def function : Text := "function"

def module : Text := "module"

def connection : Text := "connection"

def method : Text := "method"

def resourcePath : Text := "resourcePath"

def parameters : Text := "parameters"

def returnType : Text := "returnType"

def errorType : Text := "errorType"

def errorVariable : Text := "errorVariable"

/-- The keys that describe a call and are not arguments of it. -/
def callStructure : List Text :=
  [type, name, function, module, connection, method, resourcePath]

end Key

namespace BranchLabel

def body : Text := "body"

def onFail : Text := "on fail"

def whenTrue : Text := "then"

def whenFalse : Text := "else"

end BranchLabel

end Flowchart
