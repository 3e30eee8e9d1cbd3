import Flowchart.Syntax.Tree

/-!
All expressions of a file in the order of the text, each before its parts.
-/
namespace Flowchart

namespace Expr

mutual

def withParts : Expr → List Expr
  | e@(.check _ _ inner) => e :: withParts inner
  | e@(.call _ _ args) => e :: partsOfEach args
  | e@(.other _) => [e]

def partsOfEach : List Expr → List Expr
  | [] => []
  | e :: rest => withParts e ++ partsOfEach rest

end

end Expr

namespace Statement

mutual

/-- The expressions of a statement: those of its head, of its block, and of what follows the
block. -/
def expressions : Statement → List Expr
  | .varDecl _ _ _ _ init => init.toList.flatMap Expr.withParts
  | .assign _ _ value => value.withParts
  | .ret _ value => value.toList.flatMap Expr.withParts
  | .cond _ condition body otherwise =>
    condition.withParts ++ (inBlock body ++ inOtherwise otherwise)
  | .loop _ condition body handler => condition.withParts ++ (inBlock body ++ inHandler handler)
  | .each _ _ _ collection body handler =>
    collection.withParts ++ (inBlock body ++ inHandler handler)
  | .attempt _ body handler => inBlock body ++ inHandler handler
  | .lock _ body handler => inBlock body ++ inHandler handler
  | .panic _ value => value.withParts
  | .fail _ value => value.withParts
  | .expression _ value => value.withParts
  | .exitLoop _ => []
  | .nextRound _ => []
  | .comment _ _ => []
  | .invalid _ => []

def inOtherwise : Otherwise → List Expr
  | .nothing => []
  | .cond _ condition body otherwise =>
    condition.withParts ++ (inBlock body ++ inOtherwise otherwise)
  | .block body => inBlock body

def inHandler : Handler → List Expr
  | .nothing => []
  | .onFail _ body => inBlock body

def inBlock : Block → List Expr
  | .mk _ statements => inStatements statements

def inStatements : List Statement → List Expr
  | [] => []
  | statement :: rest => expressions statement ++ inStatements rest

end

end Statement

namespace SourceFile

def expressions (file : SourceFile) : List Expr :=
  file.functions.flatMap fun function => Statement.inBlock function.body

end SourceFile

end Flowchart
