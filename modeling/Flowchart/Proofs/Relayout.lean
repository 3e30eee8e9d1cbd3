import Flowchart.Proofs.Declaring
import Flowchart.Proofs.Tandem

/-!
Reading a file looks at its tokens only. Two texts with the same tokens and no comments are both
rejected with the same fault, or both read as files that agree in everything but where things stand,
with the same stretches passed over as broken for the same reasons.
-/
namespace Flowchart

open List SourceFile

variable {lexemes lexemes' : List Lexeme} {first first' : Token}

mutual

/-- The same statement with alike texts. -/
def Statement.Alike : Statement → Statement → Prop
  | .cond extent condition body otherwise, .cond extent' condition' body' otherwise' =>
    Text.Alike extent.source extent'.source ∧ condition.Alike condition' ∧ body.Alike body' ∧
      otherwise.Alike otherwise'
  | .loop extent condition body handler, .loop extent' condition' body' handler' =>
    Text.Alike extent.source extent'.source ∧ condition.Alike condition' ∧ body.Alike body' ∧
      handler.Alike handler'
  | .each extent typeName name collection body handler,
      .each extent' typeName' name' collection' body' handler' =>
    Text.Alike extent.source extent'.source ∧ Text.Alike typeName typeName' ∧ name = name' ∧
      collection.Alike collection' ∧ body.Alike body' ∧ handler.Alike handler'
  | .attempt extent body handler, .attempt extent' body' handler' =>
    Text.Alike extent.source extent'.source ∧ body.Alike body' ∧ handler.Alike handler'
  | .lock extent body handler, .lock extent' body' handler' =>
    Text.Alike extent.source extent'.source ∧ body.Alike body' ∧ handler.Alike handler'
  | .comment extent lines, .comment extent' lines' =>
    Text.Alike extent.source extent'.source ∧ lines = lines'
  | .invalid extent, .invalid extent' => Text.Alike extent.source extent'.source
  | statement, statement' => statement.PlainAlike statement'
termination_by structural statement => statement

def Otherwise.Alike : Otherwise → Otherwise → Prop
  | .nothing, .nothing => True
  | .cond extent condition body otherwise, .cond extent' condition' body' otherwise' =>
    Text.Alike extent.source extent'.source ∧ condition.Alike condition' ∧ body.Alike body' ∧
      otherwise.Alike otherwise'
  | .block body, .block body' => body.Alike body'
  | _, _ => False
termination_by structural otherwise => otherwise

def Handler.Alike : Handler → Handler → Prop
  | .nothing, .nothing => True
  | .onFail binding body, .onFail binding' body' =>
    Option.Rel (fun a b => Text.Alike a.1 b.1 ∧ a.2 = b.2) binding binding' ∧ body.Alike body'
  | _, _ => False
termination_by structural handler => handler

def Block.Alike : Block → Block → Prop
  | .mk extent statements, .mk extent' statements' =>
    Text.Alike extent.source extent'.source ∧ Statement.AllAlike statements statements'
termination_by structural block => block

def Statement.AllAlike : List Statement → List Statement → Prop
  | [], [] => True
  | statement :: rest, statement' :: rest' => statement.Alike statement' ∧
    Statement.AllAlike rest rest'
  | _, _ => False
termination_by structural statements => statements

end

structure Import.Alike (a b : Import) : Prop where
  org : a.org = b.org
  name : Text.Alike a.name b.name

structure Param.Alike (a b : Param) : Prop where
  typeName : Text.Alike a.typeName b.typeName
  name : a.name = b.name

structure FunctionDef.Alike (a b : FunctionDef) : Prop where
  name : a.name = b.name
  params : Forall₂ Param.Alike a.params b.params
  returnType : Option.Rel Text.Alike a.returnType b.returnType
  body : a.body.Alike b.body
  signature : Text.Alike a.signature.source b.signature.source

/-- The same file with alike texts, and the same problems in it. -/
structure SourceFile.Alike (a b : SourceFile) : Prop where
  name : a.name = b.name
  imports : Forall₂ Import.Alike a.imports b.imports
  functions : Forall₂ FunctionDef.Alike a.functions b.functions
  diagnostics : Forall₂ Diagnostic.Alike a.diagnostics b.diagnostics

variable {src src' : Source} {align : Alignment src src'} {tokens : List Token}

theorem Lexeme.count_twins (h : Forall₂ (Lexeme.Twins align) lexemes lexemes') :
    count lexemes = count lexemes' := by
  induction h with
  | nil => rfl
  | cons hfirst _ ih => rw [count, count, ih, hfirst.comments.length_eq]

namespace StatementReader

open Reader ExprReader

/-- Shapes that alike texts turn into alike statements. -/
def ShapesAlike (make make' : Shape) : Prop :=
  ∀ extent extent' : Extent, Text.Alike extent.source extent'.source →
    (make extent).Alike (make' extent')

theorem targetStop?_twins {depth : Nat} {previous previous' : Option Mark}
    (hprevious : Option.Rel align.holds previous previous')
    (h : Forall₂ (Lexeme.Twins align) lexemes lexemes') :
    Option.Rel align.holds (targetStop? depth previous lexemes)
      (targetStop? depth previous' lexemes') := by
  induction h generalizing depth previous previous' with
  | nil => exact .none
  | cons hfirst _ ih =>
    unfold targetStop?
    simp only [hfirst.token.is, hfirst.token.same.opens, hfirst.token.same.closes]
    have hstop := Option.Rel.some hfirst.token.stop
    split
    · exact ih hstop
    split
    · split
      · exact .none
      · exact ih hstop
    split
    · exact .none
    split
    · exact hprevious
    · exact ih hstop

theorem afterEquals_twins (h : Forall₂ (Lexeme.Twins align) lexemes lexemes') :
    Forall₂ (Lexeme.Twins align) (afterEquals lexemes) (afterEquals lexemes') := by
  induction h with
  | nil => exact .nil
  | cons hfirst hrest ih =>
    unfold afterEquals
    rw [hfirst.token.is]
    split
    · exact hrest
    · exact ih

/-- Declarations with alike types, the same name and cursors at the same token after it. -/
structure Declared (align : Alignment src src') (a b : Text × Text × Cursor) : Prop where
  typeName : Text.Alike a.1 b.1
  name : a.2.1 = b.2.1
  cursors : a.2.2.Twins align b.2.2

theorem declaration?_twins {c c' : Cursor} (hc : c.Twins align c') :
    Option.Rel (Declared align) (declaration? src c) (declaration? src' c') := by
  have hrest := hc.rest
  have hscan := TypeText.scan_twins hrest
  unfold declaration?
  generalize TypeText.scan c.rest = found, TypeText.scan c'.rest = found' at hscan
  generalize c.rest = rest, c'.rest = rest' at hrest
  cases hrest with
  | nil => exact .none
  | cons hfirst _ =>
  cases hscan with
  | failed => exact .none
  | found hstop hleft =>
  cases hleft with
  | nil => exact .none
  | cons hname hleft =>
  cases hleft with
  | nil => exact .none
  | cons hfollow hleft =>
    dsimp only
    rw [hname.token.same.isWord, hfollow.token.is, hfollow.token.is]
    split
    · exact .some ⟨align.slices hfirst.token.start hstop, hname.token.text,
        .cons hfollow hleft, hname.token.stop, hc.log⟩
    · exact .none

theorem agree_valueToSemicolon :
    Agree align Expr.Alike (valueToSemicolon src) (valueToSemicolon src') := by
  refine (agree_readUntil _).bind fun value value' hvalue => ?_
  exact (agree_expect _).bind fun _ _ _ => agree_pure hvalue

theorem agree_initializer :
    Agree align Expr.OptionAlike (initializer src) (initializer src') := by
  have hend (init init' : Option Expr) (hinit : Expr.OptionAlike init init') :
      Agree align Expr.OptionAlike (expect src ";" >>= fun _ => pure init)
        (expect src' ";" >>= fun _ => pure init') :=
    (agree_expect _).bind fun _ _ _ => agree_pure hinit
  refine (agree_eat _).bind fun found found' hfound => ?_
  refine agree_ite hfound ?_ ?_
  · have hvalue : Agree align Expr.OptionAlike (some <$> readUntil src ";")
        (some <$> readUntil src' ";") := (agree_readUntil _).map fun _ _ h => h
    exact hvalue.bind hend
  · exact (agree_pure trivial).bind hend

theorem agree_simple : Agree align ShapesAlike (simple src) (simple src') := by
  refine (agree_eat _).bind fun isFinal isFinal' hfinal => ?_
  subst hfinal
  refine agree_get.bind fun c c' hc => ?_
  have hdeclared := declaration?_twins hc
  generalize declaration? src c = declared, declaration? src' c' = declared' at hdeclared
  cases hdeclared with
  | @some declared declared' hdeclared =>
    obtain ⟨htype, hname, hafter⟩ := hdeclared
    refine (agree_set hafter).bind fun _ _ _ => agree_initializer.bind fun init init' hinit => ?_
    refine agree_pure fun extent extent' hextent => ?_
    exact ⟨hextent, rfl, htype, hname, hinit⟩
  | none =>
    have hpeek := hc.peek?
    have htarget : Option.Rel align.holds (targetStop? 0 none c.rest) (targetStop? 0 none c'.rest) :=
      targetStop?_twins .none hc.rest
    generalize c.peek? = found, c'.peek? = found' at hpeek
    refine agree_ite rfl ?_ ?_
    · cases hpeek with
      | none => exact agree_failAtEnd _
      | some => exact agree_failAt rfl
    · have hvalue : Agree align ShapesAlike
          (valueToSemicolon src >>= fun value => pure fun extent => .expression extent value)
          (valueToSemicolon src' >>= fun value => pure fun extent => .expression extent value) :=
        agree_valueToSemicolon.bind fun value value' hvalue =>
          agree_pure fun extent extent' hextent => ⟨hextent, hvalue⟩
      cases hpeek with
      | none => exact hvalue
      | some hfirst =>
        generalize targetStop? 0 none c.rest = stop, targetStop? 0 none c'.rest = stop' at htarget
        cases htarget with
        | none => exact hvalue
        | some hstop =>
          have hafter : Cursor.Twins align { c with rest := afterEquals c.rest }
              { c' with rest := afterEquals c'.rest } :=
            ⟨afterEquals_twins hc.rest, hc.last, hc.log⟩
          refine (agree_set hafter).bind fun _ _ _ => ?_
          refine agree_valueToSemicolon.bind fun value value' hvalue => ?_
          exact agree_pure fun extent extent' hextent =>
            ⟨hextent, align.trims hfirst.start hstop, hvalue⟩

def PartsAlike (a b : Expr × Block × Otherwise) : Prop :=
  a.1.Alike b.1 ∧ a.2.1.Alike b.2.1 ∧ a.2.2.Alike b.2.2

section

variable {block block' : Reader Block} (hblock : Agree align Block.Alike block block')

include hblock

theorem agree_handler : Agree align Handler.Alike (handler src block) (handler src' block') := by
  have hbody (binding binding' : Option (Text × Text))
      (hbinding : Option.Rel (fun a b => Text.Alike a.1 b.1 ∧ a.2 = b.2) binding binding') :
      Agree align Handler.Alike (block >>= fun body => pure (.onFail binding body))
        (block' >>= fun body => pure (.onFail binding' body)) :=
    hblock.bind fun body body' hbody => agree_pure ⟨hbinding, hbody⟩
  refine agree_get.bind fun c c' hc => ?_
  rw [hc.at?, hc.peekSecond?]
  refine agree_ite rfl ?_ (agree_pure trivial)
  refine agree_advance.bind fun _ _ _ => agree_advance.bind fun _ _ _ => ?_
  refine agree_get.bind fun c c' hc => agree_ite (hc.at? _) ?_ ?_
  · exact (agree_pure .none).bind hbody
  · refine TypeText.agree_read.bind fun typeName typeName' htype => ?_
    refine agree_expectWord.bind fun name name' hname => ?_
    exact (agree_pure (.some ⟨htype, hname.text⟩)).bind hbody

theorem agree_conditional (bound : Nat) :
    Agree align PartsAlike (conditional src block bound) (conditional src' block' bound) := by
  induction bound with
  | zero => exact agree_failAtEnd _
  | succ bound ih =>
    refine (agree_expect _).bind fun _ _ _ => ?_
    refine (agree_readUntil _).bind fun condition condition' hcondition => ?_
    refine hblock.bind fun body body' hbody => ?_
    refine (agree_eat _).bind fun other other' hother => ?_
    refine agree_ite hother ?_ (agree_pure ⟨hcondition, hbody, trivial⟩)
    refine agree_get.bind fun c c' hc => ?_
    have hlast : Agree align PartsAlike
        (block >>= fun last => pure (condition, body, .block last))
        (block' >>= fun last => pure (condition', body', .block last)) :=
      hblock.bind fun last last' hlast => agree_pure ⟨hcondition, hbody, hlast⟩
    have hpeek := hc.peek?
    generalize c.peek? = found, c'.peek? = found' at hpeek
    cases hpeek with
    | none => exact hlast
    | @some token token' htoken =>
      refine agree_ite (htoken.is _) ?_ hlast
      refine ih.bind fun inner inner' hinner => agree_get.bind fun c c' hc => ?_
      refine agree_pure ⟨hcondition, hbody, ?_⟩
      exact ⟨align.slices htoken.start hc.last, hinner⟩

theorem agree_shape (hfirst : first.Twins align first') :
    Agree align ShapesAlike (shape src block first) (shape src' block' first') := by
  refine agree_ite (hfirst.is _) ?_ (agree_ite (hfirst.is _) ?_ (agree_ite (hfirst.is _) ?_
    (agree_ite (hfirst.is _) ?_ (agree_ite (hfirst.is _) ?_ (agree_ite (hfirst.is _) ?_
    (agree_ite (hfirst.is _) ?_ (agree_ite (hfirst.is _) ?_ ?_)))))))
  · refine agree_advance.bind fun _ _ _ => (agree_eat _).bind fun ended ended' hended => ?_
    refine agree_ite hended ?_ ?_
    · exact agree_pure fun extent extent' hextent => ⟨hextent, trivial⟩
    · refine agree_valueToSemicolon.bind fun value value' hvalue => ?_
      exact agree_pure fun extent extent' hextent => ⟨hextent, hvalue⟩
  · refine agree_get.bind fun c c' hc => ?_
    rw [hc.rest.length_eq]
    refine (agree_conditional hblock _).bind fun parts parts' hparts => ?_
    exact agree_pure fun extent extent' hextent => ⟨hextent, hparts⟩
  · refine agree_advance.bind fun _ _ _ => ?_
    refine (agree_readUntil _).bind fun condition condition' hcondition => ?_
    refine hblock.bind fun body body' hbody => ?_
    refine (agree_handler hblock).bind fun handler handler' hhandler => ?_
    exact agree_pure fun extent extent' hextent => ⟨hextent, hcondition, hbody, hhandler⟩
  · refine agree_advance.bind fun _ _ _ => ?_
    refine TypeText.agree_read.bind fun typeName typeName' htype => ?_
    refine agree_expectWord.bind fun name name' hname => (agree_expect _).bind fun _ _ _ => ?_
    refine (agree_readUntil _).bind fun collection collection' hcollection => ?_
    refine hblock.bind fun body body' hbody => ?_
    refine (agree_handler hblock).bind fun handler handler' hhandler => ?_
    exact agree_pure fun extent extent' hextent =>
      ⟨hextent, htype, hname.text, hcollection, hbody, hhandler⟩
  · refine agree_advance.bind fun _ _ _ => hblock.bind fun body body' hbody => ?_
    refine (agree_handler hblock).bind fun handler handler' hhandler => ?_
    exact agree_pure fun extent extent' hextent => ⟨hextent, hbody, hhandler⟩
  · refine agree_advance.bind fun _ _ _ => hblock.bind fun body body' hbody => ?_
    refine (agree_handler hblock).bind fun handler handler' hhandler => ?_
    exact agree_pure fun extent extent' hextent => ⟨hextent, hbody, hhandler⟩
  · refine agree_advance.bind fun _ _ _ => (agree_expect _).bind fun _ _ _ => ?_
    exact agree_pure fun extent extent' hextent => hextent
  · refine agree_advance.bind fun _ _ _ => (agree_expect _).bind fun _ _ _ => ?_
    exact agree_pure fun extent extent' hextent => hextent
  · refine agree_get.bind fun c c' hc => ?_
    rw [hfirst.is, hfirst.is, hc.peekSecond?]
    refine agree_ite rfl ?_ agree_simple
    refine agree_advance.bind fun _ _ _ => ?_
    refine agree_valueToSemicolon.bind fun value value' hvalue => ?_
    refine agree_pure fun extent extent' hextent => ?_
    split
    · exact ⟨hextent, hvalue⟩
    · exact ⟨hextent, hvalue⟩

theorem agree_statement (hfirst : first.Twins align first') :
    Agree align Statement.Alike (statement src block first) (statement src' block' first') := by
  refine (agree_shape hblock hfirst).bind fun make make' hmake => ?_
  refine agree_get.bind fun c c' hc => agree_pure ?_
  exact hmake _ _ (align.slices hfirst.start hc.last)

end

theorem commentRun_twins {previous previous' : Token} {comments comments' : List Token}
    (hprevious : previous.Remarks align previous')
    (h : Forall₂ (Token.Remarks align) comments comments') :
    Forall₂ (Token.Remarks align) (commentRun previous comments).1 (commentRun previous' comments').1 ∧
      Forall₂ (Token.Remarks align) (commentRun previous comments).2
        (commentRun previous' comments').2 := by
  induction h generalizing previous previous' with
  | nil => exact ⟨.nil, .nil⟩
  | @cons a b _ _ hfirst hrest ih =>
    have hnext : b.start.position.line = previous'.start.position.line + 1 ↔
        a.start.position.line = previous.start.position.line + 1 := by
      rw [hfirst.line, hprevious.line]
      omega
    unfold commentRun
    simp only [hnext]
    split
    · exact ⟨.cons hfirst (ih hfirst).1, (ih hfirst).2⟩
    · exact ⟨.nil, .cons hfirst hrest⟩

theorem map_commentBody {comments comments' : List Token}
    (h : Forall₂ (Token.Remarks align) comments comments') :
    comments.map commentBody = comments'.map commentBody := by
  induction h with
  | nil => rfl
  | cons hfirst _ ih => rw [map_cons, map_cons, ih, commentBody, commentBody, hfirst.text]

theorem agree_comment? :
    Agree align (Option.Rel Statement.Alike) (comment? src) (comment? src') := by
  intro c c' hc
  obtain ⟨rest, last, log⟩ := c
  obtain ⟨rest', last', log'⟩ := c'
  have hrest := hc.rest
  cases hrest with
  | nil => exact .ok .none hc
  | @cons first first' _ _ hfirst hmore =>
    obtain ⟨comments, token⟩ := first
    obtain ⟨comments', token'⟩ := first'
    obtain ⟨htoken, hcomments⟩ := hfirst
    cases hcomments with
    | nil => exact .ok .none hc
    | @cons a b _ _ hfirst hothers =>
      obtain ⟨hrun, hleft⟩ := commentRun_twins hfirst hothers
      have hlast := rel_getLast? hrun
      unfold comment?
      dsimp only
      generalize (commentRun a _).1.getLast? = end₁, (commentRun b _).1.getLast? = end₂ at hlast
      have hstop : align.holds (end₁.getD a).stop (end₂.getD b).stop := by
        cases hlast with
        | none => exact hfirst.stop
        | some hlast => exact hlast.stop
      exact .ok (.some ⟨align.slices hfirst.start hstop, map_commentBody (.cons hfirst hrun)⟩)
        ⟨.cons ⟨htoken, hleft⟩ hmore, hstop, hc.log⟩

theorem skipBroken_twins {depth : Nat} {last last' : Mark} (hlast : align.holds last last')
    (h : Forall₂ (Lexeme.Twins align) lexemes lexemes') :
    align.holds (skipBroken depth last lexemes).1 (skipBroken depth last' lexemes').1 ∧
      Forall₂ (Lexeme.Twins align) (skipBroken depth last lexemes).2
        (skipBroken depth last' lexemes').2 := by
  induction h generalizing depth last last' with
  | nil => exact ⟨hlast, .nil⟩
  | @cons a b _ _ hfirst hrest ih =>
    unfold skipBroken
    simp only [hfirst.token.is]
    split
    · split
      · refine ⟨?_, .cons ⟨hfirst.token, .nil⟩ hrest⟩
        have hcomments := rel_getLast? hfirst.comments
        generalize a.comments.getLast? = end₁, b.comments.getLast? = end₂ at hcomments
        cases hcomments with
        | none => exact hlast
        | some hcomment => exact hcomment.stop
      · exact ⟨hfirst.token.stop, hrest⟩
      · exact ih hfirst.token.stop
    split
    · exact ih hfirst.token.stop
    split
    · exact ⟨hfirst.token.stop, hrest⟩
    · exact ih hfirst.token.stop

theorem agree_recovering {read read' : Token → Reader Statement}
    (hread : Agree align Statement.Alike (read first) (read' first'))
    (hfirst : first.Twins align first') :
    Agree align Statement.Alike (recovering src read first) (recovering src' read' first') := by
  intro c c' hc
  have hresult := hread c c' hc
  obtain ⟨hstop, hrest⟩ : align.holds (skipBroken 0 first.stop c.rest).1
      (skipBroken 0 first'.stop c'.rest).1 ∧ Forall₂ (Lexeme.Twins align)
        (skipBroken 0 first.stop c.rest).2 (skipBroken 0 first'.stop c'.rest).2 :=
    skipBroken_twins hfirst.stop hc.rest
  unfold recovering
  generalize read first c = result, read' first' c' = result' at hresult
  cases hresult with
  | ok hvalue hcursors => exact .ok hvalue hcursors
  | error hfault hlog =>
    refine .ok (align.slices hfirst.start hstop) ⟨hrest, hstop, ?_⟩
    exact rel_append hlog (.cons ⟨rfl, congrArg SyntaxFault.message hfault, rfl⟩ .nil)

theorem agree_statements {read read' : Token → Reader Statement}
    (hread : ∀ first first', first.Twins align first' →
      Agree align Statement.Alike (read first) (read' first'))
    (opening opening' : Token) (bound : Nat) :
    Agree align Statement.AllAlike (statements src read opening bound)
      (statements src' read' opening' bound) := by
  induction bound with
  | zero => exact agree_failAtEnd _
  | succ bound ih =>
    refine agree_comment?.bind fun comment comment' hcomment => ?_
    cases hcomment with
    | some hcomment => exact ih.bind fun rest rest' hrest => agree_pure ⟨hcomment, hrest⟩
    | none =>
      refine agree_get.bind fun c c' hc => ?_
      have hpeek := hc.peek?
      generalize c.peek? = found, c'.peek? = found' at hpeek
      cases hpeek with
      | none => exact agree_failAt rfl
      | some htoken =>
        refine agree_ite (htoken.is _) (agree_pure trivial) ?_
        refine (agree_recovering (hread _ _ htoken) htoken).bind fun first first' hfirst => ?_
        exact ih.bind fun rest rest' hrest => agree_pure ⟨hfirst, hrest⟩

theorem agree_block (depth : Nat) : Agree align Block.Alike (block src depth) (block src' depth) := by
  induction depth with
  | zero => exact agree_failAtEnd _
  | succ depth ih =>
    refine (agree_expect _).bind fun opening opening' hopening => ?_
    refine agree_get.bind fun c c' hc => ?_
    rw [Lexeme.count_twins hc.rest]
    refine (agree_statements (fun _ _ => agree_statement ih) _ _ _).bind fun body body' hbody => ?_
    refine (agree_expect _).bind fun closing closing' hclosing => ?_
    exact agree_pure ⟨align.slices hopening.start hclosing.stop, hbody⟩

end StatementReader

namespace FileReader

open Reader

theorem agree_dottedTail {stop stop' : Mark} (hstop : align.holds stop stop') (bound : Nat) :
    Agree align align.holds (dottedTail src stop bound) (dottedTail src' stop' bound) := by
  induction bound generalizing stop stop' with
  | zero => exact agree_failAtEnd _
  | succ bound ih =>
    refine (agree_eat _).bind fun found found' hfound => ?_
    refine agree_ite hfound ?_ (agree_pure hstop)
    exact agree_expectWord.bind fun part part' hpart => ih hpart.stop

variable {R : Import → Import → Prop}

theorem agree_importDecl (h : ∀ a b, a.Alike b → align.texts a.name b.name → R a b) :
    Agree align R (importDecl src) (importDecl src') := by
  refine (agree_expect _).bind fun _ _ _ => agree_expectWord.bind fun org org' horg => ?_
  refine (agree_expect _).bind fun _ _ _ => agree_expectWord.bind fun first first' hfirst => ?_
  refine agree_get.bind fun c c' hc => ?_
  rw [hc.rest.length_eq]
  refine (agree_dottedTail hfirst.stop _).bind fun stop stop' hstop => ?_
  refine (agree_expect _).bind fun _ _ _ => ?_
  exact agree_pure (h _ _ ⟨horg.text, align.slices hfirst.start hstop⟩ (align.exact hfirst.start hstop))

theorem agree_params (bound : Nat) :
    Agree align (Forall₂ Param.Alike) (params src bound) (params src' bound) := by
  induction bound with
  | zero => exact agree_failAtEnd _
  | succ bound ih =>
    refine agree_get.bind fun _ _ _ => ?_
    refine TypeText.agree_read.bind fun typeName typeName' htype => ?_
    refine agree_expectWord.bind fun name name' hname => ?_
    refine (agree_eat _).bind fun more more' hmore => ?_
    refine agree_ite hmore ?_ (agree_pure (.cons ⟨htype, hname.text⟩ .nil))
    exact ih.bind fun rest rest' hrest => agree_pure (.cons ⟨htype, hname.text⟩ hrest)

theorem agree_parameters :
    Agree align (Forall₂ Param.Alike) (parameters src) (parameters src') := by
  refine agree_get.bind fun c c' hc => agree_ite (hc.at? _) (agree_pure .nil) ?_
  refine agree_get.bind fun c c' hc => ?_
  rw [hc.rest.length_eq]
  exact agree_params _

theorem agree_returned : Agree align (Option.Rel Text.Alike) (returned src) (returned src') := by
  refine (agree_eat _).bind fun found found' hfound => agree_ite hfound ?_ (agree_pure .none)
  exact TypeText.agree_read.map fun typeName typeName' htype => .some htype

theorem agree_functionDef :
    Agree align FunctionDef.Alike (functionDef src) (functionDef src') := by
  rw [functionDef_eq, functionDef_eq]
  refine (agree_expect _).bind fun keyword keyword' hkeyword => ?_
  refine agree_expectWord.bind fun name name' hname => (agree_expect _).bind fun _ _ _ => ?_
  refine agree_parameters.bind fun params params' hparams => (agree_expect _).bind fun _ _ _ => ?_
  refine agree_returned.bind fun returned returned' hreturned => ?_
  refine agree_get.bind fun c c' hc => agree_get.bind fun d d' hd => ?_
  rw [hd.rest.length_eq]
  refine (StatementReader.agree_block _).bind fun body body' hbody => agree_get.bind fun _ _ _ => ?_
  exact agree_pure
    ⟨hname.text, hparams, hreturned, hbody, align.slices hkeyword.start hc.last⟩

def DeclarationsAlike (R : Import → Import → Prop) (a b : List Import × List FunctionDef) : Prop :=
  Forall₂ R a.1 b.1 ∧ Forall₂ FunctionDef.Alike a.2 b.2

theorem agree_declarations (himport : ∀ a b, a.Alike b → align.texts a.name b.name → R a b)
    (bound : Nat) :
    Agree align (DeclarationsAlike R) (declarations src bound) (declarations src' bound) := by
  induction bound with
  | zero => exact agree_failAtEnd _
  | succ bound ih =>
    refine agree_get.bind fun c c' hc => ?_
    have hpeek := hc.peek?
    generalize c.peek? = found, c'.peek? = found' at hpeek
    cases hpeek with
    | none => exact agree_pure ⟨.nil, .nil⟩
    | some htoken =>
      refine agree_ite (htoken.is _) ?_ (agree_ite ?_ ?_ (agree_ite (htoken.is _) ?_ ?_))
      · refine (agree_importDecl himport).bind fun first first' hfirst => ?_
        exact ih.bind fun rest rest' hrest => agree_pure ⟨.cons hfirst hrest.1, hrest.2⟩
      · rw [htoken.is, htoken.is]
      · exact agree_advance.bind fun _ _ _ => ih
      · refine agree_functionDef.bind fun first first' hfirst => ?_
        exact ih.bind fun rest rest' hrest => agree_pure ⟨hrest.1, .cons hfirst hrest.2⟩
      · exact agree_failAt (congrArg SyntaxFault.expectedDeclaration htoken.text)

theorem agree_file : Agree align (DeclarationsAlike Import.Alike)
    (fun cursor => declarations src (cursor.rest.length + 1) cursor)
    (fun cursor => declarations src' (cursor.rest.length + 1) cursor) := by
  intro c c' hc
  change Results align _ (declarations src (c.rest.length + 1) c)
    (declarations src' (c'.rest.length + 1) c')
  rw [← hc.rest.length_eq]
  exact agree_declarations (fun _ _ halike _ => halike) _ c c' hc

end FileReader

/-- Tokens that are twins, or the same comment. -/
inductive Token.Pair (align : Alignment src src') : Token → Token → Prop
  | token {a b : Token} (h : a.Twins align b) : Pair align a b
  | comment {a b : Token} (ha : a.isComment = true) (hb : b.isComment = true)
      (h : a.Remarks align b) : Pair align a b

theorem Lexeme.ofTokens_twins {pending pending' tokens' : List Token}
    (hpending : Forall₂ (Token.Remarks align) pending pending')
    (h : Forall₂ (Token.Pair align) tokens tokens') :
    Forall₂ (Lexeme.Twins align) (ofTokens pending tokens) (ofTokens pending' tokens') := by
  induction h generalizing pending pending' with
  | nil => exact .nil
  | cons hfirst _ ih =>
    unfold ofTokens
    cases hfirst with
    | comment ha hb h =>
      rw [ha, hb]
      exact ih (rel_append hpending (.cons h .nil))
    | token h =>
      rw [h.proper, Token.isComment, ← h.cls, ← Token.isComment, h.proper]
      exact .cons ⟨h, hpending⟩ (ih .nil)

namespace Source

open Token

/-- The tokens of two sources with the same classes and texts are twins. -/
theorem twins {tokens' : List Token} (hcuts : Cuts {} src.text tokens)
    (hcuts' : Cuts {} src'.text tokens') (hkeys : keys tokens = keys tokens')
    (hcomment : ∀ token ∈ tokens, token.isComment = false)
    (hcomment' : ∀ token ∈ tokens', token.isComment = false) :
    Forall₂ (Lexeme.Twins (seams hkeys hcomment hcomment' : Alignment src src'))
      (Lexeme.ofTokens [] tokens) (Lexeme.ofTokens [] tokens') := by
  have hlength : tokens.length = tokens'.length := by simpa [Token.keys] using congrArg length hkeys
  refine Lexeme.ofTokens_twins .nil (forall₂_iff_get.mpr ⟨hlength, fun i hi hi' => .token ?_⟩)
  obtain ⟨hstart, hstop⟩ := seam_token hcuts (getElem?_eq_getElem hi)
  obtain ⟨hstart', hstop'⟩ := seam_token hcuts' (getElem?_eq_getElem hi')
  have hkey := congrArg (·[i]?) hkeys
  simp only [Token.keys, getElem?_map, getElem?_eq_getElem hi, getElem?_eq_getElem hi', Option.map_some,
    Option.some.injEq, Prod.mk.injEq] at hkey
  exact ⟨hkey.1, hkey.2, ⟨i, by omega, by omega, hstart, hstart'⟩,
    ⟨i + 1, by omega, by omega, hstop, hstop'⟩, hcomment _ (getElem_mem hi)⟩

/-- The tokens of a text that two sources end in are twins. -/
theorem shifted_twins {front front' tail : Text} {before tokens : List Token} {lines : Nat}
    (hsrc : src.text = front ++ tail) (hsrc' : src'.text = front' ++ tail)
    (hcuts : Cuts {} src.text (before ++ tokens)) (htail : Cuts (({} : Mark).after front) tail tokens)
    (hlines : front'.count '\n' = front.count '\n' + lines) :
    ∃ tokens', Cuts (({} : Mark).after front') tail tokens' ∧
      Forall₂ (Lexeme.Twins (shifted (before ++ tokens) lines hsrc hsrc'))
        (Lexeme.ofTokens [] tokens) (Lexeme.ofTokens [] tokens') := by
  obtain ⟨tokens', hcuts', hmoved⟩ := htail.moved (({} : Mark).after front')
  obtain ⟨hlength, hmoved⟩ := forall₂_iff_get.mp hmoved
  refine ⟨tokens', hcuts', Lexeme.ofTokens_twins .nil
    (forall₂_iff_get.mpr ⟨hlength, fun i hi hi' => ?_⟩)⟩
  obtain ⟨hcls, htext, hstart, hstop⟩ := hmoved i hi hi'
  obtain ⟨hseam, hseam'⟩ := @seam_token src _ hcuts (before.length + i) (tokens.get ⟨i, hi⟩) (by
    rw [getElem?_append_right (Nat.le_add_right _ _), Nat.add_sub_cancel_left]
    exact getElem?_eq_getElem hi)
  have hholds {mark mark' : Mark} {count : Nat} (hmarks : ∃ piece,
      mark = (({} : Mark).after front).after piece ∧ mark' = (({} : Mark).after front').after piece)
      (hcount : count ≤ before.length + tokens.length) (hseam : src.Seam (before ++ tokens) count mark) :
      src.Shifted front front' (before ++ tokens) mark mark' := by
    obtain ⟨piece, rfl, rfl⟩ := hmarks
    exact ⟨⟨piece.length, by simp [Mark.index_after], by simp [Mark.index_after]⟩, count,
      by rwa [length_append], hseam⟩
  have hstart' := hholds hstart (by omega) hseam
  have hstop' := hholds hstop (by omega) hseam'
  cases hcomment : (tokens.get ⟨i, hi⟩).isComment with
  | false => exact .token ⟨hcls, htext, hstart', hstop', hcomment⟩
  | true =>
    refine .comment hcomment (by rwa [isComment, ← hcls]) ⟨htext, hstart', hstop', ?_⟩
    obtain ⟨piece, hmark, hmark'⟩ := hstart
    rw [hmark, hmark']
    change ((({} : Position).after front').after piece).line =
      ((({} : Position).after front).after piece).line + lines
    simp only [Position.line_after]
    omega

end Source

theorem FileReader.run_of_scan {α : Type} {read : Reader α} (h : Token.scan src.text = .ok tokens) :
    run src read = match read { rest := Lexeme.ofTokens [] tokens } with
      | .ok value cursor => .ok (value, cursor)
      | .error error _ => .error error := by
  unfold run
  rw [h]
  rfl

/-- Readers that agree on texts with the same tokens have the same outcome on them. -/
theorem FileReader.run_determined {α : Type} {R : α → α → Prop} {read read' : Reader α}
    (hread : ∀ align : Alignment src src', Reader.Agree align R read read')
    {tokens : List (TokenClass × Text)} (h : Text.tokens? src.text = some tokens)
    (h' : Text.tokens? src'.text = some tokens) (hcomment : ∀ token ∈ tokens, token.1 ≠ .comment) :
    (∃ error error', run src read = .error error ∧ run src' read' = .error error' ∧
      error.fault = error'.fault) ∨
    ∃ a a' c c', run src read = .ok (a, c) ∧ run src' read' = .ok (a', c') ∧ R a a' ∧
      Forall₂ Diagnostic.Alike c.log c'.log := by
  obtain ⟨found, hscan, hkeys⟩ := Token.scan_of_tokens? h
  obtain ⟨found', hscan', hkeys'⟩ := Token.scan_of_tokens? h'
  have hproper {list : List Token} (hlist : Token.keys list = tokens) :
      ∀ token ∈ list, token.isComment = false := by
    intro token hmem
    apply decide_eq_false
    apply hcomment (token.cls, token.text)
    rw [← hlist]
    exact mem_map_of_mem hmem
  have hsame : Token.keys found = Token.keys found' := hkeys.trans hkeys'.symm
  have htwins := Source.twins (Token.scan_eq_ok_iff.mp hscan) (Token.scan_eq_ok_iff.mp hscan') hsame
    (hproper hkeys) (hproper hkeys')
  have hresult := hread _ { rest := Lexeme.ofTokens [] found } { rest := Lexeme.ofTokens [] found' }
    ⟨htwins, ⟨0, Nat.zero_le _, Nat.zero_le _, src.seam_zero _, src'.seam_zero _⟩, .nil⟩
  rw [run_of_scan hscan, run_of_scan hscan']
  generalize read _ = result, read' _ = result' at hresult
  cases hresult with
  | ok hvalue hcursors => exact .inr ⟨_, _, _, _, rfl, rfl, hvalue, hcursors.log⟩
  | error hfault _ => exact .inl ⟨_, _, rfl, rfl, hfault⟩

theorem SourceFile.read_of_run
    {result : Except SyntaxError ((List Import × List FunctionDef) × Cursor)}
    (h : FileReader.run src (fun cursor =>
      FileReader.declarations src (cursor.rest.length + 1) cursor) = result) :
    read src = result.map fun found => ⟨src.file, found.1.1, found.1.2, found.2.log⟩ := by
  unfold read
  rw [h]
  cases result with
  | error => rfl
  | ok => rfl

/-- Texts with the same tokens, none of which is a comment, are both rejected with the same fault or
are both read, as files that agree in everything but where things stand. -/
theorem SourceFile.read_determined {file text text' : Text} {tokens : List (TokenClass × Text)}
    (h : Text.tokens? text = some tokens) (h' : Text.tokens? text' = some tokens)
    (hcomment : ∀ token ∈ tokens, token.1 ≠ .comment) :
    (∃ error error', read ⟨file, text⟩ = .error error ∧
      read ⟨file, text'⟩ = .error error' ∧ error.fault = error'.fault) ∨
    ∃ tree tree', read ⟨file, text⟩ = .ok tree ∧
      read ⟨file, text'⟩ = .ok tree' ∧ tree.Alike tree' := by
  let src : Source := ⟨file, text⟩
  let src' : Source := ⟨file, text'⟩
  have hread (align : Alignment src src') := @FileReader.agree_file src src' align
  rcases FileReader.run_determined hread h h' hcomment with
    ⟨error, error', hrun, hrun', hfault⟩ | ⟨pair, pair', c, c', hrun, hrun', hpairs, hlog⟩
  · exact .inl ⟨error, error', read_of_run hrun, read_of_run hrun', hfault⟩
  · exact .inr ⟨_, _, read_of_run hrun, read_of_run hrun', rfl, hpairs.1, hpairs.2, hlog⟩

/-- A file on one line and the same file on several, with an else-if, a resource call and two broken
statements. -/
theorem SourceFile.read_determined_recovered :
    ∃ text text' : Text, text ≠ text' ∧ Text.tokens? text = Text.tokens? text' ∧
      ∃ tree tree', read ⟨"m", text⟩ = .ok tree ∧ read ⟨"m", text'⟩ = .ok tree' ∧
        tree.diagnostics.length = 2 ∧ tree.functions.length = 1 ∧ tree.Alike tree' := by
  let text : Text := "function f(int x)\x7bif x\x7b);\x7delse if y\x7br=check c->/a/b.go(1,g());\x7dz=;\x7d"
  let text' : Text :=
    "function f(int x) \x7b\n if x \x7b ) ; \x7d\n else if y \x7b r = check c->/a / b.go(1, g()); \x7d z = ; \x7d"
  have hsame : Text.tokens? text = Text.tokens? text' := by decide +kernel
  have hproper : (Text.tokens? text).any (fun tokens => tokens.all (·.1 ≠ .comment)) = true := by
    decide +kernel
  obtain ⟨tree, hread, hdiagnostics, hfunctions⟩ := Except.exists_ok (read ⟨"m", text⟩)
    (fun tree => tree.diagnostics.length = 2 ∧ tree.functions.length = 1) (by decide +kernel)
  obtain ⟨tokens, htokens, hcomment⟩ := (Option.any_eq_true _ _).mp hproper
  rcases read_determined htokens (hsame.symm.trans htokens)
      (fun token hmem => of_decide_eq_true (all_eq_true.mp hcomment token hmem)) with
    ⟨error, error', herror, -, -⟩ | ⟨_, tree', htree, hread', halike⟩
  · cases hread.symm.trans herror
  · cases hread.symm.trans htree
    exact ⟨text, text', by decide, hsame, tree, tree', hread, hread', hdiagnostics, hfunctions, halike⟩

end Flowchart
