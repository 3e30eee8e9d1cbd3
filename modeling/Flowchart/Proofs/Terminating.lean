import Flowchart.Proofs.Modifiers
import Flowchart.Proofs.Relayout
import Flowchart.Proofs.Splicing

/-!
The end of an expression statement. The text that is rendered for an expression ends in a semicolon,
so that whatever follows it in a block is read as it is read alone. An expression that ends in a brace
is rendered without one and takes in what follows.
-/
namespace Flowchart

open List Text Token StatementReader Call

variable {src src' : Source} {c c' : Cursor} {extent : Extent} {value : Expr} {block : Block}

namespace StatementReader

/-- Statements that are read without a problem are read alike wherever their lexemes stand. -/
theorem Reads.again {align : Alignment src src'} {c₁ : Cursor} {statements : List Statement}
    (h : Reads src (.statements statements) c c₁) (hlog : c₁.log = []) (hc : c.Twins align c') :
    ∃ found c₁', Reads src' (.statements found) c' c₁' ∧ Statement.AllAlike statements found ∧
      c₁.Twins align c₁' := by
  have hfound := h.found hlog c.rest.length _ default le_rfl (Nat.lt_succ_self _)
  have hresult := agree_statements (fun _ _ => agree_statement (agree_block c.rest.length)) default
    default (Lexeme.count c.rest + 1) c c' hc
  rw [hfound] at hresult
  generalize hread : StatementReader.statements src'
    (statement src' (StatementReader.block src' c.rest.length)) default (Lexeme.count c.rest + 1) c' =
      result at hresult
  cases hresult with
  | ok halike hcursors =>
    exact ⟨_, _, (statements_reads block_reads (adds_block _) hread).1, halike, hcursors⟩

/-- The lexemes of an expression statement, and how they are read where they are found again. -/
theorem Reads.expression_again {s : Statement} (h : Reads src (.statement s) c c')
    (hs : s = .expression extent value) (hsits : Sits src c) :
    ∃ first others semicolon, c.rest = first :: others ++ semicolon :: c'.rest ∧
      ExprReader.Forms src ";" (first :: others) value ∧
      ∀ {start sign rest' others' value'}, Lexeme.Alike (first :: others) (bare start :: others') →
        (∀ lexeme ∈ bare start :: others', lexeme.token.Taken) → Sign sign ";" →
        ExprReader.Forms src' ";" (bare start :: others') value' →
        Plain src' rest' (bare start :: (others' ++ [bare sign])) (.expression · value') := by
  cases h with
  | plain htakes hplain =>
    have htaken := fun lexeme hmem => hsits.taken lexeme (htakes.rest ▸ mem_append_left _ hmem)
    cases hplain with
    | bare hbare => cases hbare <;> cases hs
    | gives hgives => cases hgives <;> cases hs
    | simple hstarts hsimple =>
      generalize hwhole : (⟨[], _⟩ : Lexeme) :: _ = whole at hsimple
      cases hsimple with
      | declaration | assignment => cases hs
      | @expression lexemes semicolon _ hfinal hdeclares hstop hvalue hsemicolon =>
        cases hs
        obtain ⟨first, others, rfl⟩ := exists_cons_of_ne_nil hvalue.nonempty
        obtain ⟨rfl, rfl⟩ := cons.inj hwhole
        refine ⟨_, others, semicolon, by rw [htakes.rest]; simp, hvalue, ?_⟩
        intro start sign rest' others' value' halike htaken' hsign hvalue'
        have hends : semicolon.token.Taken := htaken semicolon (by simp)
        have hlast : semicolon.token.Same sign := by
          refine ⟨?_, (hsits.proper semicolon (by rw [htakes.rest]; simp)).1⟩
          rw [(spelling_of_semicolon hends hsemicolon).2, spelling, hsign.cls, hsign.text]
          rfl
        refine .simple ?_ (.expression_alike hfinal hdeclares hstop hvalue.passes hsemicolon hends
          htaken' halike hlast hvalue')
        cases halike with
        | cons hfirst hothers =>
          rw [← startsSimple_alike hfirst (hothers.append (.cons hlast .nil))]
          exact hstarts
  | cond => cases hs
  | guarded _ hhead => cases hhead <;> cases hs

end StatementReader

/-- The statements of a block without problems are read alike behind another text in the block. -/
theorem Block.reads_behind {name front rest : Text}
    (h : Block.read ⟨name, "\x7b" ++ rest ++ "\x7d"⟩ = .ok block) (hwell : block.unread = [])
    (hsrc' : src'.text = "\x7b" ++ front ++ (rest ++ "\x7d")) :
    ∃ tokens others c' brace,
      Cuts (({} : Mark).after ("\x7b" ++ front)) (rest ++ "\x7d") tokens ∧
      Reads src' (.statements others)
        ⟨Lexeme.ofTokens [] tokens, ({} : Mark).after ("\x7b" ++ front), []⟩ c' ∧
      Statement.AllAlike block.statements others ∧ c'.log = [] ∧ c'.rest = [bare brace] ∧
      brace.is "\x7d" := by
  obtain ⟨_, c', hscan, hreads, hrest⟩ := Block.reads_of_read h
  have hcuts := scan_eq_ok_iff.mp hscan
  obtain ⟨notes, hlog, htraces⟩ := (hreads.leaves (FileReader.sits_of_scan hscan)).traces
  rw [Phrase.unread, hwell] at htraces
  rw [htraces.eq_nil_iff.mpr rfl] at hlog
  have hsrc : (⟨name, "\x7b" ++ rest ++ "\x7d"⟩ : Source).text = "\x7b" ++ (rest ++ "\x7d") :=
    append_assoc ..
  obtain ⟨opening, tokens, rfl, hcls, -, hstop, htail⟩ := Cuts.unlone (by decide) (hsrc ▸ hcuts)
  obtain ⟨tokens', hcuts', htwins⟩ := @Source.shifted_twins _ src' "\x7b" ("\x7b" ++ front) _ [opening]
    tokens (front.count '\n') hsrc hsrc' hcuts htail List.count_append
  cases hreads with
  | @block _ closing statements _ c₁ c₂ _ hopens _ hbody hcloses hclosing =>
    have hplain : opening.isComment = false := decide_eq_false (by rw [hcls]; decide)
    obtain ⟨rfl, hrest₁⟩ := cons.inj (hopens.rest.symm.trans (ofTokens_cons hplain tokens))
    have hlast : c₁.last = ({} : Mark).after "\x7b" := hopens.last.trans hstop
    have hlog₂ : c₂.log = [] := hcloses.log.symm.trans hlog
    have hseam : Source.Seam _ (opening :: tokens) 1 opening.stop := (Source.seam_token hcuts rfl).2
    have hc : c₁.Twins (Source.shifted ([opening] ++ tokens) (front.count '\n') hsrc hsrc')
        ⟨Lexeme.ofTokens [] tokens', ({} : Mark).after ("\x7b" ++ front), []⟩ := by
      refine ⟨?_, ⟨⟨0, ?_, ?_⟩, 1, by simp, hlast ▸ hstop ▸ hseam⟩, ?_⟩
      · rwa [show c₁.rest = _ from hrest₁]
      · rw [hlast]
        exact Nat.zero_add _
      · exact Nat.zero_add _
      · rw [hopens.log]
        exact .nil
    obtain ⟨others, c₂', hothers, halike, hc₂⟩ := hbody.again hlog₂ hc
    have hrest₂ := hc₂.rest
    rw [hcloses.rest, hrest] at hrest₂
    obtain ⟨⟨comments, brace⟩, _, ⟨hbrace, hcomments⟩, hnil, hend⟩ := forall₂_cons_left_iff.mp hrest₂
    cases hnil
    cases hcomments
    have hlogs := hc₂.log
    rw [hlog₂] at hlogs
    refine ⟨tokens', others, c₂', brace, hcuts', hothers, halike, forall₂_nil_left_iff.mp hlogs,
      hend, ?_⟩
    rwa [Token.is, ← hbrace.text]

theorem ExprReader.Forms.slice {first : Lexeme} {others : List Lexeme} {stop : Text}
    (h : Forms src stop (first :: others) value) :
    src.slice first.token.start (stopOf {} (Lexeme.flat (first :: others))) = value.source := by
  rw [TypeText.slice_eq_extentOf, h.value, ExprReader.source_ofTokens]

/-- The node of an expression is rendered as its text and a semicolon. -/
theorem StatementReader.Reads.render_expression {setting : Setting}
    (h : Reads src (.statement (.expression extent value)) c c') (hsits : Sits src c)
    (hkept : (Statement.expression extent value).isKept setting) (width : Nat) :
    ∃ node, (Statement.expression extent value).node? setting = some node ∧
      node.kind = .expression ∧ Render.render width node = .ok (value.source ++ ";") := by
  obtain ⟨first, others, semicolon, hrest, hvalue, -⟩ :=
    @Reads.expression_again src src c c' extent value _ h rfl hsits
  have hfrom : c.rest = [] ++ (first :: others ++ semicolon :: c'.rest) := hrest
  obtain ⟨hkeys, htrim⟩ := hsits.slice hfrom
  rw [hvalue.slice] at hkeys htrim
  have hlast := not_semicolon_of_puts hsits hrest hvalue
    (@Sits.puts_forms ⟨false, fun _ => false, fun _ _ => True⟩ _ _ _ _ _ _ hsits hrest nofun hvalue)
  unfold Statement.isKept at hkept
  rw [Bool.and_eq_true, Bool.and_eq_true, Bool.not_eq_true', Bool.not_eq_true',
    decide_eq_true_eq] at hkept
  obtain ⟨⟨hcall, hmessage⟩, hbrace⟩ := hkept
  refine ⟨(((Draft.begun extent).withKind .expression).withProperty Key.statement
    (.ofExpression value.source)).toNode, ?_, rfl, ?_⟩
  · rw [Statement.node?, Walker.express, Call.recognize_of_not hcall, hmessage]
    rfl
  · change Render.expression _ = _
    unfold Render.expression
    rw [Render.given?_of_none rfl, Render.given?_of_property? rfl (trim_ne_nil_of_tokens? hkeys)]
    dsimp only [Option.or, Property.ofExpression]
    rw [if_neg (fun h => h.elim hlast hbrace), htrim]
    rfl

section Terminated

variable {name rest : Text}

/-- Before the rest of a block the text is read as the expression, and the rest as it is read alone. -/
def Expr.EndsIn (name text rest : Text) (value : Expr) (block : Block) : Prop :=
  ∃ found extent value' others, Block.read ⟨name, "\x7b" ++ (text ++ rest) ++ "\x7d"⟩ = .ok found ∧
    found.statements = .expression extent value' :: others ∧
    value'.source = value.source ∧ Statement.AllAlike block.statements others

theorem Block.read_terminated (h : Reads src (.statement (.expression extent value)) c c')
    (hsits : Sits src c) (hbrace : c.rest.head?.any (·.token.is "\x7d") = false)
    (hblock : Block.read ⟨name, "\x7b" ++ rest ++ "\x7d"⟩ = .ok block) (hwell : block.unread = []) :
    value.EndsIn name (value.source ++ ";") rest block := by
  let src' : Source := ⟨name, "\x7b" ++ (value.source ++ ";" ++ rest) ++ "\x7d"⟩
  obtain ⟨first, others, semicolon, hrest, hvalue, hagain⟩ :=
    @Reads.expression_again src src' c c' extent value _ h rfl hsits
  obtain ⟨-, -, tokens, start, others', hcuts, hlast, hlexemes, halike, htaken, hslice⟩ :=
    @stretch_cuts src src' c [] others _ first "\x7b" (";" ++ (rest ++ "\x7d")) value.source hsits
      hrest hvalue.slice (by simp [src'])
  obtain ⟨tokens', following, c₂, brace, hcuts', hfollowing, hothers, hlog, hend, hclose⟩ :=
    @Block.reads_behind src' block name (value.source ++ ";") rest hblock hwell (by simp [src'])
  have hmark : ({} : Mark).after ("\x7b" ++ (value.source ++ ";")) =
      ((({} : Mark).after "\x7b").after value.source).after [';'] := by
    rw [Mark.after_append, Mark.after_append]
    rfl
  rw [hmark] at hcuts' hfollowing
  -- The other statements are read from where the semicolon ends.
  obtain ⟨sign, hsignCuts, hsign⟩ := @lone_cuts ';' _ _ _ (by decide) hcuts'
  obtain ⟨_, _, htokens, -, -, hstop, -⟩ := hsignCuts.unlone (by decide)
  obtain ⟨rfl, -⟩ := cons.inj htokens
  rw [← hstop, ← @ExprReader.stopOf_flat_of_getLast? {} (bare start :: (others' ++ [bare sign])) sign
    (by simp [bare, getLast?_cons])] at hfollowing
  obtain ⟨value', hvalue', -⟩ := hvalue.alike src' (by decide) halike
  obtain ⟨found, extent', hfound, hstatements⟩ := read_before (by simp [src'])
    (hcuts.followed hlast hsignCuts rfl) (by
      rw [ofTokens_append (.inr rfl) hlast, hlexemes, ofTokens_cons hsign.plain]
      simp) (text_ne_of_alike halike (by rw [hrest] at hbrace; exact hbrace))
    (hagain halike htaken hsign hvalue') hfollowing hlog hend hclose
  exact ⟨found, extent', value', following, hfound, hstatements, hvalue'.slice.symm.trans hslice,
    hothers⟩

/-- The rendered text of an expression statement ends it. The expression is no call that is recognized
or dropped and does not end in a brace. Before any statements without problems the text is read as an
expression of the same text, and these statements are read as they are read alone. -/
theorem render_read_terminated {setting : Setting} {file : SourceFile} {function : FunctionDef}
    (hread : SourceFile.read src = .ok file) (hfunction : function ∈ file.functions)
    (hstatement : .expression extent value ∈ function.body.within)
    (hkept : (Statement.expression extent value).isKept setting = true) (width : Nat)
    (hblock : Block.read ⟨name, "\x7b" ++ rest ++ "\x7d"⟩ = .ok block) (hwell : block.unread = []) :
    ∃ node text, Walker.walkStatement setting (.expression extent value) {} = .ok (some node, {}) ∧
      node.kind = .expression ∧ Render.render width node = .ok text ∧
      value.EndsIn name text rest block := by
  obtain ⟨c, c', hsits, hbrace, hreads⟩ :=
    SourceFile.stands hread function hfunction _ hstatement rfl
  obtain ⟨node, hnode, hkind, hrender⟩ := hreads.render_expression hsits hkept width
  have hwalk := Walker.walkStatement_eq setting (.expression extent value) [] false
  rw [hnode] at hwalk
  exact ⟨node, _, hwalk, hkind, hrender, Block.read_terminated hreads hsits hbrace hblock hwell⟩

end Terminated

theorem render_read_terminated_call :
    ∃ src file rest block, src.text = ("function f() \x7b g(1, // one\n \x7bb: 2\x7d); \x7d" : Text) ∧
      SourceFile.read src = .ok file ∧ rest = (" // two\n while (c) \x7b h(); \x7d" : Text) ∧
      Block.read ⟨"m", "\x7b" ++ rest ++ "\x7d"⟩ = .ok block ∧ block.unread = [] ∧
      block.statements.length = 2 ∧ ∃ function ∈ file.functions, ∃ extent value,
        .expression extent value ∈ function.body.within ∧
        (Statement.expression extent value).isKept {} = true ∧ ∃ node text,
          Walker.walkStatement {} (.expression extent value) {} = .ok (some node, {}) ∧
          node.kind = .expression ∧ Render.render 4 node = .ok text ∧
          value.EndsIn "m" text rest block := by
  let src : Source := ⟨"m", "function f() \x7b g(1, // one\n \x7bb: 2\x7d); \x7d"⟩
  obtain ⟨file, hread, function, hfunction, statement, hmem, hheld, hkept⟩ :=
    Except.exists_ok (SourceFile.read src) (fun file => ∃ function ∈ file.functions,
      ∃ s ∈ function.body.within, s.held?.map Prod.fst = some .alone ∧ s.isKept {} = true)
      (by decide +kernel)
  obtain ⟨block, hblock, hunread, hlength⟩ := Except.exists_ok
    (Block.read ⟨"m", "\x7b" ++ " // two\n while (c) \x7b h(); \x7d" ++ "\x7d"⟩)
    (fun block => block.unread.length = 0 ∧ block.statements.length = 2) (by decide +kernel)
  obtain ⟨extent, value, rfl⟩ : ∃ extent value, statement = .expression extent value := by
    cases statement with
    | expression => exact ⟨_, _, rfl⟩
    | varDecl _ _ _ _ init => cases init <;> cases hheld
    | _ => cases hheld
  have hwell := eq_nil_of_length_eq_zero hunread
  exact ⟨src, file, _, block, rfl, hread, rfl, hblock, hwell, hlength, function, hfunction, extent,
    value, hmem, hkept, render_read_terminated hread hfunction hmem hkept 4 hblock hwell⟩

/-- An expression that ends in a brace is rendered without a semicolon, and takes in the statement
after it. -/
theorem render_read_merges :
    (⟨"m", "function f() \x7b new Listener \x7b\x7d; \x7d"⟩ : Source).statements?.map
      (·.map fun s => (s.held?.map (·.2.source), s.written? {})) =
        some [(some ("new Listener \x7b\x7d" : Text), some ("new Listener \x7b\x7d" : Text))] ∧
    (Block.read ⟨"m", "\x7b g();\x7d"⟩).toOption.map (fun block =>
      (block.unread.length, block.statements.length)) = some (0, 1) ∧
    (Block.read ⟨"m", "\x7bnew Listener \x7b\x7d g();\x7d"⟩).toOption.map
      (·.statements.map fun s => s.held?.map (·.2.source)) =
        some [some ("new Listener \x7b\x7d g()" : Text)] := by
  refine ⟨?_, ?_, ?_⟩ <;> decide +kernel

end Flowchart
