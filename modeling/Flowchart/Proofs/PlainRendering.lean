import Flowchart.Proofs.Rendering
import Flowchart.Proofs.Translation

/-!
Plain statements are rendered as they are spelled. The node of a declaration, an assignment, a return
or any other statement without blocks keeps the texts of its parts, and what is rendered from it puts
down the spellings of the statement, as long as no call in it is recognized.
-/
namespace Flowchart

open Lexeme Token StatementReader List Render Text Statement

variable {like : Likeness} {src : Source} {c : Cursor} {setting : Setting} {width : Nat}

namespace Call

/-- The semantic model knows what the expression calls, under any checks around it. -/
def recognizes (setting : Setting) (e : Expr) : Bool :=
  match e.unchecked with
  | .call extent callee args =>
    (setting.symbols.resolve? (.call extent callee args)).any fun symbol =>
      invokes callee symbol.kind
  | _ => false

/-- The expression is a call of a remote or resource method, under any checks around it. -/
def isMessage (e : Expr) : Bool :=
  match e.unchecked with
  | .call _ (.function ..) _ => false
  | .call .. => true
  | _ => false

theorem recognize_of_not {e : Expr} (h : recognizes setting e = false) (draft : Draft) :
    recognize setting e draft = if isMessage e then .dropped else .unrecognized := by
  unfold recognizes at h
  unfold recognize isMessage
  cases hcall : e.unchecked with
  | call extent callee args =>
    rw [hcall] at h
    dsimp only at h ⊢
    cases hsymbol : setting.symbols.resolve? (.call extent callee args) with
    | none => cases callee <;> rfl
    | some symbol =>
      rw [hsymbol, Option.any_some] at h
      dsimp only
      rw [h]
      cases callee <;> rfl
  | check | other => rfl

end Call

/-- The statement is written as it stands: none of its own calls is recognized or a message that
would be dropped, its target does not reach too far, its expression is not complete without a
semicolon, and its condition is more than a pair of parentheses. -/
def Statement.isKept (setting : Setting) : Statement → Bool
  | .varDecl _ _ _ _ init => !init.any (Call.recognizes setting)
  | .assign extent target value =>
    !Call.recognizes setting value && !(assign extent target value).overreaches
  | .expression _ value =>
    !Call.recognizes setting value && !Call.isMessage value &&
      (trim value.source).getLast? ≠ some '\x7d'
  | .cond _ condition _ _ => !condition.isEmptyParens
  | .loop _ condition _ _ => !condition.isEmptyParens
  | .comment .. => false
  | .invalid .. => false
  | _ => true

/-- A statement that is not a condition can be rendered, and its text puts down the spellings. -/
def Statement.Renders (like : Likeness) (setting : Setting) (width : Nat) (statement : Statement)
    (ks : List Spelling) : Prop :=
  ∃ node text, statement.node? setting = some node ∧ node.kind ≠ .cond ∧
    Render.render width node = .ok text ∧ Puts like text ks

namespace Statement

variable {extent : Extent} {typeName name target : Text} {value : Expr}
  {ts ls vs : List Spelling}

theorem renders_declaration {isFinal : Bool} {init : Option Expr}
    (hinit : init.any (Call.recognizes setting) = false)
    (htyped : Puts like (trim typeName) ts) (hnamed : Puts like (trim name) ls)
    (hgiven : (trim ((init.map Expr.source).getD []) = [] ∧ vs = []) ∨
      ∃ ks, vs = mark "=" :: ks ∧ Puts like (trim ((init.map Expr.source).getD [])) ks) :
    (varDecl extent isFinal typeName name init).Renders like setting width
      ((if isFinal then [keyword "final"] else []) ++ (ts ++ ls ++ vs) ++ [mark ";"]) := by
  let plain : Draft := ((((Draft.begun extent).withProperty Key.type (.ofType typeName)).withProperty
    Key.name (.ofIdentifier name)).withKind .varDecl).withProperty Key.value
      (.ofExpression ((init.map Expr.source).getD []))
  have hdeclare : Walker.declare setting isFinal typeName name init (Draft.begun extent) =
      if isFinal then plain.withFlag .final else plain := by
    unfold Walker.declare
    cases init with
    | none => rfl
    | some init =>
      dsimp only
      rw [Call.recognize_of_not hinit]
      cases Call.isMessage init <;> rfl
  have hflag : (if isFinal then plain.withFlag .final else plain).toNode.hasFlag .final =
      isFinal := by
    have hplain : Flags.contains {} .final = false := by decide
    have hset : Flags.contains (Flags.insert {} .final) .final := by decide
    cases isFinal
    · exact hplain
    · exact hset
  have hkind : (if isFinal then plain.withFlag .final else plain).toNode.kind = .varDecl := by
    cases isFinal <;> rfl
  have hproperties : (if isFinal then plain.withFlag .final else plain).toNode.properties =
      plain.properties := by
    cases isFinal <;> rfl
  have hproperty (key : Text) : (if isFinal then plain.withFlag .final else plain).toNode.property? key =
      Properties.get? plain.properties key := by
    rw [Node.property?, hproperties]
  obtain ⟨text, htext, hputs⟩ := declaration_puts hflag (hproperty _) (hproperty _)
    (hproperty _) htyped hnamed hgiven
  refine ⟨_, text, by rw [node?, hdeclare], by rw [hkind]; decide, ?_, hputs⟩
  rw [render_eq, Render.statement, hkind]
  exact htext

theorem renders_assignment (hvalue : Call.recognizes setting value = false)
    (htarget : Puts like (trim target) ts)
    (hputs : Puts like (trim value.source) vs) :
    (assign extent target value).Renders like setting width
      (ts ++ mark "=" :: (vs ++ [mark ";"])) := by
  have hassign : Walker.assign setting target value (Draft.begun extent) =
      ((((Draft.begun extent).withProperty Key.name (.ofIdentifier target)).withKind
        .assign).withProperty Key.value (.ofExpression value.source)) := by
    unfold Walker.assign
    dsimp only
    rw [Call.recognize_of_not hvalue]
    cases Call.isMessage value <;> rfl
  have hname : ((((Draft.begun extent).withProperty Key.name (.ofIdentifier target)).withKind
      .assign).withProperty Key.value (.ofExpression value.source)).toNode.property? Key.name =
        some (.ofIdentifier target) := rfl
  obtain ⟨text, htext, hputs⟩ := assignment_puts hname rfl htarget hputs
  refine ⟨_, text, by rw [node?, hassign], (by decide : NodeKind.assign ≠ .cond), ?_, hputs⟩
  exact htext

theorem renders_expression (hvalue : Call.recognizes setting value = false)
    (hmessage : Call.isMessage value = false) (hputs : Puts like (trim value.source) vs)
    (hlast : (trim value.source).getLast? ≠ some ';' ∧
      (trim value.source).getLast? ≠ some '\x7d') :
    (expression extent value).Renders like setting width (vs ++ [mark ";"]) := by
  have hexpress : Walker.express setting value (Draft.begun extent) =
      some (((Draft.begun extent).withKind .expression).withProperty Key.statement
        (.ofExpression value.source)) := by
    unfold Walker.express
    rw [Call.recognize_of_not hvalue, hmessage]
    rfl
  have hstatement : (((Draft.begun extent).withKind .expression).withProperty Key.statement
      (.ofExpression value.source)).toNode.property? Key.statement =
        some (.ofExpression value.source) := rfl
  obtain ⟨text, htext, hputs⟩ := expression_puts rfl hstatement hputs hlast
  refine ⟨_, text, by rw [node?, hexpress, Option.map_some], (by decide : NodeKind.expression ≠ .cond), ?_, hputs⟩
  exact htext

end Statement

theorem ExprReader.not_mem_of_passes {stop : Text} {depth : Nat} {texts : List Text}
    (h : ExprReader.passes stop depth texts) : (";" : Text) ∉ texts := by
  induction texts generalizing depth with
  | nil => exact not_mem_nil
  | cons text texts ih =>
    have hstep {inner : Nat} (hne : text ≠ ";")
        (hinner : ExprReader.passes stop inner texts) : (";" : Text) ∉ text :: texts := by
      rintro hmem
      rcases mem_cons.mp hmem with rfl | hmem
      · exact hne rfl
      · exact ih hinner hmem
    rcases (ExprReader.passes_cases h).2 with ⟨hopens, h⟩ | ⟨-, hcloses, inner, -, h⟩ | ⟨-, -, hne, h⟩
    · refine hstep ?_ h
      rintro rfl
      exact absurd hopens (by decide)
    · refine hstep ?_ h
      rintro rfl
      exact absurd hcloses (by decide)
    · exact hstep hne h

namespace StatementReader

variable {rest : List Lexeme} {extent : Extent} {word : Text}

theorem Bare.renders {make : Shape} (h : Bare word make) :
    (make extent).Renders like setting width [keyword word, mark ";"] := by
  cases h <;> exact ⟨_, _, by rw [node?], ne_of_beq_false rfl, render_eq _,
    endStatement_puts (Script.puts_first (.keyword (by decide)))⟩

theorem Gives.renders {make : Extent → Expr → Statement} {value : Expr} {vs : List Spelling}
    (h : Gives word make) (hputs : Puts like (trim value.source) vs) :
    (make extent value).Renders like setting width (keyword word :: (vs ++ [mark ";"])) := by
  have hword : isWord word := by cases h <;> decide
  have hvalue (kind : NodeKind) : (((Draft.begun extent).withKind kind).withProperty
      Key.expression (.ofExpression value.source)).toNode.property? Key.expression =
        some (.ofExpression value.source) := rfl
  have hraised (kind : NodeKind) := raised_puts hword (hvalue kind) hputs
  cases h with
  | give =>
    have hvalue : (Walker.leave (some value) (Draft.begun extent)).toNode.property? Key.expression =
        some (.ofExpression value.source) := rfl
    obtain ⟨text, htext, hputs⟩ := returned_puts rfl hvalue hputs
    refine ⟨_, text, by rw [node?], ne_of_beq_false rfl, ?_, hputs⟩
    exact htext
  | panic | fail =>
    obtain ⟨text, htext, hputs⟩ := hraised _
    refine ⟨_, text, by rw [node?], ne_of_beq_false rfl, ?_, hputs⟩
    exact htext

theorem spells_semicolon : Spells (";" : Text) [mark ";"] := .lone (by decide) (.done rfl)

/-- A keyword, an expression and a semicolon. -/
theorem Sits.puts_raised {first semicolon : Lexeme} {taken : List Lexeme} {value : Expr}
    (hsits : Sits src c) (hrest : c.rest = first :: (taken ++ [semicolon]) ++ rest)
    (hfit : Fit like (first :: (taken ++ [semicolon]))) (hword : isWord word)
    (hfirst : first.token.is word) (hvalue : ExprReader.Forms src ";" taken value)
    (hsemicolon : semicolon.token.is ";") :
    Puts like (trim value.source) (spellings taken) ∧
      keyword word :: (spellings taken ++ [mark ";"]) =
        spellings (first :: (taken ++ [semicolon])) := by
  have hsplit : c.rest = [first] ++ (taken ++ (semicolon :: rest)) := by
    rw [hrest]
    simp
  obtain ⟨c₁, -, hrest₁, hsits₁⟩ := hsits.take hsplit
  have hputs := hsits₁.puts_forms hrest₁ (hfit.of_subset fun _ hmem => by simp [hmem]) hvalue
  have hspelling := hsits.spelling_eq (by rw [hrest]; simp) hfirst (.word hword)
  have hspelling' := hsits.spelling_eq (by rw [hrest]; simp) hsemicolon spells_semicolon
  refine ⟨hputs, ?_⟩
  simp [spellings, hspelling, hspelling', keyword]

theorem spellings_bare {first semicolon : Lexeme} (hsits : Sits src c)
    (hrest : c.rest = [first, semicolon] ++ rest) (hword : isWord word)
    (hfirst : first.token.is word) (hsemicolon : semicolon.token.is ";") :
    [keyword word, mark ";"] = spellings [first, semicolon] := by
  have hspelling := hsits.spelling_eq (by rw [hrest]; simp) hfirst (.word hword)
  have hspelling' := hsits.spelling_eq (by rw [hrest]; simp) hsemicolon spells_semicolon
  simp [spellings, hspelling, hspelling', keyword]

/-- The spellings of what follows the name of a declaration, and the text of its value. -/
theorem Sits.puts_initial {tail : List Lexeme} {init : Option Expr} (hsits : Sits src c)
    (hrest : c.rest = tail ++ rest) (hfit : Fit like tail) (hinit : Initial src tail init) :
    ∃ vs, spellings tail = vs ++ [mark ";"] ∧
      ((trim ((init.map Expr.source).getD []) = [] ∧ vs = []) ∨
        ∃ ks, vs = mark "=" :: ks ∧
          Puts like (trim ((init.map Expr.source).getD [])) ks) := by
  cases hinit with
  | @none semicolon hsemicolon =>
    have hspelling := hsits.spelling_eq (by rw [hrest]; simp) hsemicolon spells_semicolon
    exact ⟨[], by simp [spellings, hspelling], .inl ⟨rfl, rfl⟩⟩
  | @some equals semicolon taken value hequals hvalue hsemicolon =>
    have hspelling := hsits.spelling_eq (by rw [hrest]; simp) hsemicolon spells_semicolon
    have hspelling' := hsits.spelling_eq (by rw [hrest]; simp) hequals Writes.equals.spells
    have hsplit : c.rest = [equals] ++ (taken ++ semicolon :: rest) := by
      rw [hrest]
      simp
    obtain ⟨c₁, -, hrest₁, hsits₁⟩ := hsits.take hsplit
    have hputs := hsits₁.puts_forms hrest₁ (hfit.of_subset fun _ hmem => by simp [hmem]) hvalue
    refine ⟨mark "=" :: spellings taken, ?_, .inr ⟨_, rfl, hputs⟩⟩
    simp [spellings, hspelling, hspelling', mark]

/-- The text of an expression does not end in a semicolon. -/
theorem not_semicolon_of_puts {stop : Text} {taken : List Lexeme} {value : Expr}
    (hsits : Sits src c) (hrest : c.rest = taken ++ rest)
    (hvalue : ExprReader.Forms src stop taken value)
    (hputs : Puts like (trim value.source) (spellings taken)) :
    (trim value.source).getLast? ≠ some ';' := by
  intro hlast
  obtain ⟨ss, hwrites, hshows⟩ := hputs
  obtain ⟨front, hfront⟩ := getLast?_eq_some_iff.mp hlast
  rw [hfront] at hwrites
  obtain ⟨inner, rfl, -⟩ := hwrites.spells.unclose (by decide) hwrites.closed
  have hmem : mark ";" ∈ spellings taken := by
    rw [← hshows.uncommented]
    refine mem_filter.mpr ⟨by simp [mark], rfl⟩
  obtain ⟨lexeme, hlexeme, hspelling⟩ := mem_map.mp hmem
  have hproper := hsits.proper lexeme (hrest ▸ mem_append_left _ hlexeme)
  have htext : lexeme.token.text = ";" :=
    of_decide_eq_true (is_of_spelling hproper.1 hspelling (by decide))
  refine ExprReader.not_mem_of_passes hvalue.passes ?_
  rw [← htext]
  exact mem_map_of_mem hlexeme

/-- Simple statements are rendered as they are spelled. -/
theorem Simple.renders {lexemes : List Lexeme} {make : Shape} (h : Simple src rest lexemes make)
    (hsits : Sits src c) (hrest : c.rest = lexemes ++ rest) (hfit : Fit like lexemes) (width : Nat)
    (hkept : (make extent).isKept setting) :
    (make extent).Renders like setting width (spellings lexemes) := by
  cases h with
  | @declaration final typed tail isFinal name typeName init hfinal htyped hname htail =>
    have hstart : c.rest = final ++ (typed ++ (name :: (tail ++ rest))) := by
      rw [hrest]
      simp
    obtain ⟨c₁, -, hrest₁, hsits₁⟩ := hsits.take hstart
    obtain ⟨c₂, -, hrest₂, hsits₂⟩ := hsits₁.take hrest₁
    have hafter : c₂.rest = [name] ++ (tail ++ rest) := hrest₂
    obtain ⟨c₃, -, hrest₃, hsits₃⟩ := hsits₂.take hafter
    have htypes := hsits₁.puts_names hrest₁ (hfit.of_subset fun _ hmem => by simp [hmem]) htyped
    have hnames : Puts like _ _ := hsits₂.puts_word hrest₂
    obtain ⟨vs, hvs, hgiven⟩ := hsits₃.puts_initial hrest₃
      (hfit.of_subset fun _ hmem => by simp [hmem]) htail
    have hspelled : (if isFinal then [keyword "final"] else []) ++
        (spellings typed ++ [name.token.spelling] ++ vs) ++ [mark ";"] =
          spellings (final ++ (typed ++ name :: tail)) := by
      have hfinals : (if isFinal then [keyword "final"] else []) = spellings final := by
        rcases hfinal with ⟨rfl, word, rfl, hword⟩ | ⟨rfl, rfl, -⟩
        · have hspelling := hsits.spelling_eq (by rw [hrest]; simp) hword (.word (by decide))
          simp [spellings, hspelling, keyword]
        · rfl
      rw [spellings_append, spellings_append, hfinals]
      change _ = _ ++ (_ ++ ([name.token.spelling] ++ spellings tail))
      rw [hvs]
      simp
    rw [← hspelled]
    refine renders_declaration ?_ htypes hnames hgiven
    exact Bool.not_eq_true' _ ▸ hkept
  | @assignment before taken first equals semicolon stop value hfinal hdeclares hbefore hequals
      hvalue hsemicolon hstop =>
    unfold isKept at hkept
    rw [Bool.and_eq_true, Bool.not_eq_true', Bool.not_eq_true'] at hkept
    rcases target_cases hbefore hequals hvalue.passes hsemicolon hstop with
      ⟨-, rfl⟩ | ⟨more, left, rfl, rfl⟩
    · have hstart : c.rest = first :: before ++ (equals :: (taken ++ (semicolon :: rest))) := by
        rw [hrest]
        simp
      have htarget := hsits.puts hstart (hfit.of_subset fun _ hmem => by
        rcases mem_cons.mp hmem with rfl | hmem <;> simp [*])
      obtain ⟨c₁, -, hrest₁, hsits₁⟩ := hsits.take hstart
      have hafter : c₁.rest = [equals] ++ (taken ++ (semicolon :: rest)) := hrest₁
      obtain ⟨c₂, -, hrest₂, hsits₂⟩ := hsits₁.take hafter
      have hputs := hsits₂.puts_forms hrest₂ (hfit.of_subset fun _ hmem => by simp [hmem]) hvalue
      have hspelling := hsits.spelling_eq (by rw [hrest]; simp) hequals Writes.equals.spells
      have hspelling' := hsits.spelling_eq (by rw [hrest]; simp) hsemicolon spells_semicolon
      have hspelled : spellings (first :: before) ++ mark "=" :: (spellings taken ++ [mark ";"]) =
          spellings (first :: before ++ equals :: (taken ++ [semicolon])) := by
        simp [spellings, hspelling, hspelling', mark]
      rw [← hspelled]
      exact renders_assignment hkept.1 htarget.trim hputs
    · have hover := overreaches_of_stop extent value hsits hrest hsemicolon
      exact absurd (hover.symm.trans hkept.2) (by decide)
  | @expression taken semicolon value hfinal hdeclares hstop hvalue hsemicolon =>
    unfold isKept at hkept
    rw [Bool.and_eq_true, Bool.and_eq_true, Bool.not_eq_true', Bool.not_eq_true'] at hkept
    obtain ⟨⟨hcall, hmessage⟩, hbrace⟩ := hkept
    have hstart : c.rest = taken ++ (semicolon :: rest) := by
      rw [hrest]
      simp
    have hputs := hsits.puts_forms hstart (hfit.of_subset fun _ hmem => by simp [hmem]) hvalue
    have hspelling := hsits.spelling_eq (by rw [hrest]; simp) hsemicolon spells_semicolon
    have hspelled : spellings taken ++ [mark ";"] = spellings (taken ++ [semicolon]) := by
      simp [spellings, hspelling]
    rw [← hspelled]
    refine renders_expression hcall hmessage hputs ⟨fun hlast => ?_, of_decide_eq_true hbrace⟩
    exact not_semicolon_of_puts hsits hstart hvalue hputs hlast

/-- Plain statements are rendered as they are spelled. -/
theorem Plain.renders {lexemes : List Lexeme} {make : Shape} (h : Plain src rest lexemes make)
    (hsits : Sits src c) (hrest : c.rest = lexemes ++ rest) (hfit : Fit like lexemes) (width : Nat)
    (hkept : (make extent).isKept setting) :
    (make extent).Renders like setting width (spellings lexemes) := by
  cases h with
  | bare hbare hkeyword hsemicolon =>
    rw [← spellings_bare hsits hrest (by cases hbare <;> decide) hkeyword hsemicolon]
    exact hbare.renders
  | gives hgives hkeyword _ hvalue hsemicolon =>
    obtain ⟨hputs, hspelled⟩ :=
      hsits.puts_raised hrest hfit (by cases hgives <;> decide) hkeyword hvalue hsemicolon
    rw [← hspelled]
    exact hgives.renders hputs
  | simple _ hsimple => exact hsimple.renders hsits hrest hfit width hkept

end StatementReader

end Flowchart
